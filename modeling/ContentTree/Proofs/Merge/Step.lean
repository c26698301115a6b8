import ContentTree.Merge.Apply
import ContentTree.Proofs.Draft.Growth
import ContentTree.Proofs.Edit.Tame

/-!
# Single steps of a merge

Where nobody is kept from writing and no node is synced, an operation of a merge comes down to one
write. What a creation and a move do to the tree is the same: a node is put among the children of
another, at the end or before a sibling, and leaves the place it had, if it had one.

## Main definitions

* `Editor.Free`: nothing keeps an editor from writing.
* `Tree.Puts`: a tree comes from another when a node is put into place.
* `Tree.Adds`: a tree comes from another when a node is added that has no place yet.

## Main results

* `run_delete`, `run_create`, `run_move`: what the operations of a merge do.
-/

namespace ContentTree

/-- Nothing keeps an editor from writing: there are no restrictions, and no node is synced. -/
structure Editor.Free (e : Editor) (t : Tree) : Prop where
  access : e.access = .unrestricted
  unsynced : ∀ id, t.isSynced id = false

namespace Editor

variable {e : Editor} {t : Tree} {p c id : NodeId} {n : Node} {reference : Option NodeId}

section Access

variable (h : e.access = .unrestricted)
include h

theorem mayWrite_of_unrestricted (hn : t.node? id = some n) : e.mayWrite t id = .ok () :=
  mayWrite_eq_ok.mpr ⟨n, hn, by rw [h]; rfl⟩

/-- A place is admitted where the tree and the synced nodes allow it. -/
theorem admits_of_movable (ht : t.WellFormed) (hm : Draft.Movable t p c)
    (hp : ∀ n, t.node? p = some n → n.kind.acceptsChildren = true)
    (hdocument : ∀ a b, t.document? p = some a → t.document? c = some b → a = b)
    (hreference : ∀ r, reference = some r → t.Under r p) (hunlocked : e.Unlocked t p)
    (hold : ∀ q, t.Under c q → q ≠ p → e.Unlocked t q) : e.Admits t p c reference where
  exists_parent := hm.exists_parent.imp fun n hn => ⟨hn, hp n hn⟩
  exists_child := hm.exists_child
  writable := mayWrite_of_unrestricted h hm.exists_parent.choose_spec
  ne := by
    rintro rfl
    exact hm.not_within .refl
  not_ancestor := by
    rw [Bool.eq_false_iff, ne_eq, ht.isAncestor_iff]
    exact fun hb => hm.not_within hb.within
  same_document a b ha hb hne := absurd (hdocument a b ha hb) hne
  reference_under := hreference
  unlocked := hunlocked
  unlocked_old := hold

end Access

namespace Free

variable (h : e.Free t)
include h

theorem unlocked (parent : NodeId) : e.Unlocked t parent := .inr (h.unsynced parent)

theorem belowSynced (id : NodeId) : Merge.Apply.belowSynced t id = false := by
  unfold Merge.Apply.belowSynced
  cases t.parent? id with
  | none => rfl
  | some p => exact h.unsynced p

/-- A place is admitted where the tree allows it. -/
theorem admits (ht : t.WellFormed) (hm : Draft.Movable t p c)
    (hp : ∀ n, t.node? p = some n → n.kind.acceptsChildren = true)
    (hdocument : ∀ a b, t.document? p = some a → t.document? c = some b → a = b)
    (hreference : ∀ r, reference = some r → t.Under r p) : e.Admits t p c reference :=
  admits_of_movable h.access ht hm hp hdocument hreference (h.unlocked p) fun q _ _ => h.unlocked q

end Free

end Editor

namespace Edit

variable {e : Editor} {d : Draft} {p c id : NodeId} {n : Node} {reference : Option NodeId}

theorem run_check_bind {α β : Type} {examine : Editor → Tree → Except TreeError α} (a : α)
    (h : examine e d.tree = .ok a) (f : α → Edit β) :
    (check examine >>= f).run e d = (f a).run e d := by
  rw [run_bind, run_check, h]

theorem run_trash (h : e.access = .unrestricted) (ht : d.tree.WellFormed)
    (hn : d.tree.node? id = some n) (hpage : n.kind.isPage = false)
    (hunlocked : ∀ p, d.tree.Under id p → e.Unlocked d.tree p) :
    (trash id).run e d = (.ok (), d.discard id) := by
  refine (run_check_bind () ?_ _).trans (run_write _)
  simp only [bind_eq_ok, Tree.require_eq_ok, ite_throw_bind_eq_ok]
  refine ⟨n, hn, by simp [hpage], ?_⟩
  cases hp : d.tree.parent? id with
  | none => exact Editor.mayWrite_of_unrestricted h hn
  | some p =>
    obtain ⟨m, hm⟩ := ht.exists_parent hp
    exact bind_unit_eq_ok.mpr ⟨Editor.mayWrite_of_unrestricted h hm,
      Editor.keepsSynced_eq_ok.mpr (hunlocked p hp)⟩

/-- A node other than a fragment is put into place, or else nothing changes. -/
theorem run_insert_eq (hn : d.tree.node? c = some n) (hfragment : n.kind.isFragment = false) :
    (insert p c reference).run e d =
      match e.admits d.tree p c reference with
      | .ok () => (.ok (), if some c ≠ reference then d.place p c reference else d)
      | .error err => (.error err, d) := by
  refine (run_check_bind n (Tree.require_eq_ok.mpr hn) _).trans ?_
  rw [if_neg (by simp [hfragment]), insertOne, run_bind, run_check]
  cases e.admits d.tree p c reference with
  | ok _ => dsimp only; split <;> rfl
  | error err => rfl

theorem run_insert (h : e.Admits d.tree p c reference) (hn : d.tree.node? c = some n)
    (hfragment : n.kind.isFragment = false) (hne : some c ≠ reference) :
    (insert p c reference).run e d = (.ok (), d.place p c reference) := by
  have hadmits : e.admits d.tree p c reference = .ok () := Editor.admits_eq_ok.mpr h
  rw [run_insert_eq hn hfragment, hadmits]
  exact congrArg _ (if_pos hne)

theorem run_insertBefore (h : e.Admits d.tree p c reference) (hn : d.tree.node? c = some n)
    (hfragment : n.kind.isFragment = false) (hne : some c ≠ reference) :
    (insertBefore p c reference).run e d = (.ok c, d.place p c reference) := by
  rw [insertBefore, run_bind, run_insert h hn hfragment hne]
  rfl

theorem run_append (h : e.Admits d.tree p c none) (hn : d.tree.node? c = some n)
    (hfragment : n.kind.isFragment = false) :
    (append p c).run e d = (.ok c, d.place p c none) := by
  rw [append, run_bind, run_insert h hn hfragment (Option.some_ne_none c)]
  rfl

theorem run_update {content : Content} (h : e.access = .unrestricted)
    (hn : d.tree.node? id = some n) (hkind : n.kind.same content.kind = true) :
    (update id content).run e d = (.ok (), d.setContent id content) := by
  refine (run_check_bind () ?_ _).trans (run_write _)
  exact bind_unit_eq_ok.mpr ⟨Editor.mayWrite_of_unrestricted h hn,
    bind_eq_ok.mpr ⟨n, Tree.require_eq_ok.mpr hn, ite_throw_eq_ok.mpr (by simp [hkind])⟩⟩

/-- A content as it is given to a new node. -/
def owned (e : Editor) (content : Content) : Content :=
  { content with properties := { content.properties with owner := e.principal.name? } }

/-- A new node that belongs to a document. -/
def added (e : Editor) (d : Draft) (content : Content) (document : Option NodeId) : Draft :=
  (d.addAt d.nextId (owned e content)).setDocument d.nextId document

theorem run_create {content : Content} {document : Option NodeId} (h : e.access = .unrestricted)
    (hpage : content.kind.isPage = false)
    (hdocument : ∀ page, document = some page → ∃ n, d.tree.node? page = some n ∧ n.kind.isPage) :
    (create document content).run e d = (.ok d.nextId, added e d content document) := by
  unfold create
  cases document with
  | none =>
    simp only [run_bind, run_read, run_writeNode, Draft.add, hpage]
    rfl
  | some page =>
    obtain ⟨n, hn, hkind⟩ := hdocument page rfl
    simp only [hpage, Bool.not_false, if_true]
    refine (run_check_bind () ?_ _).trans ?_
    · exact bind_unit_eq_ok.mpr ⟨Tree.requirePage_eq_ok.mpr ⟨n, hn, hkind⟩,
        Editor.mayWrite_of_unrestricted h hn⟩
    · simp only [run_bind, run_read, run_writeNode, Draft.add]
      rfl

end Edit

/-! ### Putting a node into place -/

namespace Tree

variable {t t' : Tree} {d : Draft} {p c id x y z : NodeId} {content : Content} {n : Node}
  {reference : Option NodeId}

/-- A tree comes from another when `c` is put among the children of `p`, before a sibling or at the
end, and leaves the place it had. -/
structure Puts (t t' : Tree) (p c : NodeId) (reference : Option NodeId) : Prop where
  sound : t'.Sound
  sharing : t'.sharing = t.sharing
  content : ∀ {id n}, t.node? id = some n → ∃ m, t'.node? id = some m ∧ m.toContent = n.toContent
  under : ∀ x y, t'.Under x y ↔ if x = c then y = p else t.Under x y
  children_ne : ∀ z, z ≠ p → t'.children z = (t.children z).erase c
  at_end : reference = none → t'.children p = (t.children p).erase c ++ [c]
  before : ∀ f, reference = some f →
    ∃ xs ys, (t.children p).erase c = xs ++ f :: ys ∧ t'.children p = xs ++ c :: f :: ys
  document : ∀ z, t'.document? z = t.document? z ∨ t'.document? z = t.document? p

theorem puts_place (h : d.tree.Sound) (hm : Draft.Movable d.tree p c)
    (hreference : ∀ f, reference = some f → d.tree.Under f p ∧ f ≠ c) :
    Puts d.tree (d.place p c reference).tree p c reference where
  sound := h.place hm reference
  sharing := congrArg Prod.fst (hm.relocated_place h.toWellFormed reference).rest
  content hn := by
    obtain ⟨m, hm', hcontent, -⟩ :=
      (hm.relocated_place h.toWellFormed reference).exists_node hn
    exact ⟨m, hm', hcontent⟩
  under _ _ := hm.under_place h.toWellFormed reference
  children_ne z hz := by rw [hm.children_place h.toWellFormed, if_neg hz]
  at_end hend := by
    subst hend
    exact hm.children_place_end h.toWellFormed
  before f hf := by
    obtain ⟨hunder, hne⟩ := hreference f hf
    have hmem : f ∈ (d.tree.children p).erase c :=
      (List.mem_erase_of_ne hne).mpr (h.mem_children_iff.mpr hunder)
    obtain ⟨xs, ys, hlist⟩ := List.append_of_mem hmem
    subst hf
    exact ⟨xs, ys, hlist, hm.children_place_before h.toWellFormed hlist⟩
  document := hm.document?_place h.toWellFormed reference

/-- A node that stands at its place already counts as put there. -/
theorem puts_of_standsAt (h : t.Sound) (hs : Merge.Apply.standsAt t ⟨p, reference⟩ c = true) :
    Puts t t p c reference := by
  simp only [Merge.Apply.standsAt, Bool.and_eq_true, decide_eq_true_eq] at hs
  obtain ⟨hcp, hnext⟩ := hs
  obtain ⟨n, hn, hp⟩ := Under.exists_node hcp
  have hget : (t.children p)[n.position]? = some c := h.child_iff.mpr ⟨n, hn, hp, rfl⟩
  have hnext : (t.children p)[n.position + 1]? = reference := by
    simpa [nextSibling?, hn, hp] using hnext
  obtain ⟨hlt, hc⟩ := List.getElem?_eq_some_iff.mp hget
  have hsplit : t.children p =
      (t.children p).take n.position ++ c :: (t.children p).drop (n.position + 1) := by
    rw [← hc, List.getElem_cons_drop, List.take_append_drop]
  set xs := (t.children p).take n.position
  set ys := (t.children p).drop (n.position + 1) with hys
  -- No child occurs twice, so that erasing the node takes it out from between the two parts.
  have hnot : c ∉ xs := by
    have hnodup := h.nodup_children p
    rw [hsplit] at hnodup
    exact fun hmem => (List.nodup_append'.mp hnodup).2.2 hmem List.mem_cons_self
  have herase : (t.children p).erase c = xs ++ ys := by
    rw [hsplit, List.erase_append_right _ hnot, List.erase_cons_head]
  refine ⟨h, rfl, fun hn => ⟨_, hn, rfl⟩, fun x y => ?_, fun z hz => ?_, fun hend => ?_,
    fun f hf => ?_, fun _ => .inl rfl⟩
  · split
    · next hx => exact hx ▸ ⟨fun hy => Under.eq hy hcp, fun hy => hy ▸ hcp⟩
    · rfl
  · rw [List.erase_of_not_mem]
    rw [h.mem_children_iff]
    exact fun hcz => hz (hcz.eq hcp)
  · have hnil : ys = [] := by
      rw [hys, List.drop_eq_nil_iff]
      exact List.getElem?_eq_none_iff.mp (hnext.trans hend)
    rw [herase, hsplit, hnil, List.append_nil]
  · obtain ⟨hlt', hf'⟩ := List.getElem?_eq_some_iff.mp (hnext.trans hf)
    have hcons : ys = f :: (t.children p).drop (n.position + 1 + 1) := by
      rw [hys, ← hf', List.getElem_cons_drop]
    exact ⟨xs, _, by rw [herase, hcons], hsplit.trans (congrArg (fun zs => xs ++ c :: zs) hcons)⟩

theorem erase_append_of_not_mem {xs ids : List NodeId} (hc : c ∉ ids) :
    (xs ++ ids).erase c = xs.erase c ++ ids := by
  by_cases hmem : c ∈ xs
  · exact List.erase_append_left _ hmem
  · rw [List.erase_append_right _ hmem, List.erase_of_not_mem hmem, List.erase_of_not_mem hc]

/-- After a node was put before the first of several siblings at the end of a list, it stands there
with them at the end. -/
theorem Puts.ends (h : Puts t t' p c reference) (ht : t.WellFormed) {xs ids : List NodeId}
    (hlist : t.children p = xs ++ ids) (hc : c ∉ ids) (hreference : reference = ids.head?) :
    ∃ ys, t'.children p = ys ++ c :: ids := by
  have herase : (t.children p).erase c = xs.erase c ++ ids := by
    rw [hlist, erase_append_of_not_mem hc]
  cases ids with
  | nil => exact ⟨xs.erase c, by rw [h.at_end hreference, herase, List.append_nil]⟩
  | cons f ids =>
    -- The sibling occurs once in the list, so that the two ways to split there are the same.
    obtain ⟨us, vs, hsplit, hlist'⟩ := h.before f hreference
    have hnodup := (ht.nodup_children p).erase c
    rw [herase] at hsplit hnodup
    have hdisjoint := List.nodup_append'.mp hnodup
    have hf : f ∉ xs.erase c := fun hmem => hdisjoint.2.2 hmem List.mem_cons_self
    have hf' : f ∉ ids := (List.nodup_cons.mp hdisjoint.2.1).1
    obtain ⟨-, -, rfl⟩ := (List.append_cons_inj_of_notMem hf hf').mp hsplit
    exact ⟨us, hlist'⟩

/-! ### New nodes -/

/-- A tree comes from another when a node is added that has no place yet. -/
structure Adds (t t' : Tree) (id : NodeId) (content : Content) (document : Option NodeId) :
    Prop where
  sound : t'.Sound
  sharing : t'.sharing = t.sharing
  fresh : t.node? id = none
  old : Extends t t'
  new : ∃ m, t'.node? id = some m ∧ m.toContent = content
  children : ∀ z, t'.children z = t.children z
  document : ∀ z, t'.document? z = t.document? z ∨ t'.document? z = document

theorem adds_added (h : d.tree.Sound) (e : Editor) (hpage : content.kind.isPage = false)
    (document : Option NodeId) :
    Adds d.tree (Edit.added e d content document).tree d.nextId (Edit.owned e content)
      document := by
  have hid := Draft.node?_nextId h
  have hadd := h.addAt hid (Edit.owned e content)
  have hnode : ∀ x, (d.addAt d.nextId (Edit.owned e content)).tree.node? x =
      if x = d.nextId then some (Node.ofContent d.nextId (Edit.owned e content))
      else d.tree.node? x := Draft.node?_addAt d _ _
  have hrelocated := Draft.relocated_setDocument hadd.toWellFormed d.nextId document
  refine ⟨hadd.setDocument _ document, congrArg Prod.fst hrelocated.rest, hid, ?_, ?_, fun z => ?_,
    fun z => ?_⟩
  · have hgrown := Draft.grown_addAt h hid (Edit.owned e content)
    exact (hgrown.setDocument h.toWellFormed (Draft.newRoot_addAt hid _) document).1
  · obtain ⟨m, hm, hcontent, -⟩ := hrelocated.exists_node ((hnode _).trans (if_pos rfl))
    exact ⟨m, hm, hcontent⟩
  · rw [Edit.added, Draft.children_setDocument hadd.toWellFormed]
    by_cases hz : z = d.nextId
    · rw [hz, Tree.children_eq ((hnode _).trans (if_pos rfl)), children_of_none hid]
      rfl
    · rw [Tree.children, hnode, if_neg hz, Tree.children]
  · have hdocument : (d.addAt d.nextId (Edit.owned e content)).tree.document? z =
        d.tree.document? z := by
      rw [document?, document?, hnode]
      split
      · next hz => simp [hz, hid, Node.ofContent, Node.owningPage, Edit.owned, hpage]
      · rfl
    rw [← hdocument]
    exact Draft.document?_setDocument hadd.toWellFormed d.nextId document z

namespace Adds

variable {document : Option NodeId} (h : Adds t d.tree id content document)
include h

theorem ne_reference (hreference : ∀ f, reference = some f → t.Under f p) :
    some id ≠ reference := by
  intro heq
  obtain ⟨m, hm, -⟩ := (hreference id heq.symm).exists_node
  exact Option.some_ne_none _ (hm.symm.trans h.fresh)

variable (ht : t.WellFormed)
include ht

theorem under_iff : d.tree.Under x y ↔ t.Under x y := by
  rw [← h.sound.mem_children_iff, h.children, ht.mem_children_iff]

/-- A new node can be put below an old one. -/
theorem movable (hp : t.node? p = some n) (hpage : content.kind.isPage = false) :
    Draft.Movable d.tree p id := by
  obtain ⟨m, hm, hcontent⟩ := h.new
  refine ⟨⟨n, h.old hp⟩, ⟨m, hm, ?_⟩, h.old.not_within ht hp h.fresh⟩
  rw [← hpage]
  exact congrArg (·.kind.isPage) hcontent

/-- Adding a node and putting it into place counts as putting it there. -/
theorem puts (hp : t.node? p = some n) (hpage : content.kind.isPage = false)
    (hdocument : document = t.document? p)
    (hreference : ∀ f, reference = some f → t.Under f p) :
    Puts t (d.place p id reference).tree p id reference := by
  have hputs := puts_place h.sound (h.movable ht hp hpage) fun f hf =>
    ⟨(h.under_iff ht).mpr (hreference f hf), fun heq =>
      h.ne_reference hreference (heq ▸ hf.symm)⟩
  refine ⟨hputs.sound, hputs.sharing.trans h.sharing, fun hk => hputs.content (h.old hk), ?_, ?_,
    ?_, ?_, ?_⟩
  · intro x y
    rw [hputs.under, h.under_iff ht]
  · intro z hz
    rw [hputs.children_ne z hz, h.children]
  · intro hend
    rw [hputs.at_end hend, h.children]
  · intro f hf
    obtain ⟨xs, ys, hlist, hlist'⟩ := hputs.before f hf
    exact ⟨xs, ys, by rw [← hlist, h.children], hlist'⟩
  · intro z
    subst hdocument
    rcases hputs.document z with hz | hz
    · rw [hz]
      exact h.document z
    · right
      rw [hz]
      exact (h.document p).elim (fun hd => hd) fun hd => hd

end Adds

end Tree

/-! ### The operations -/

namespace Merge.Apply

open ContentTree.Tree (Puts)

variable {e : Editor} {d : Draft} (settings : Settings) {index : KeyIndex} {p c : NodeId} {n : Node}
  {before id : Option NodeId} {destination : Destination} (key : BranchKey) {content : Content}

theorem unlocked_of_belowSynced (hfree : belowSynced d.tree c = false)
    (hp : d.tree.Under c p) : e.Unlocked d.tree p := by
  refine .inr ?_
  have hparent : d.tree.parent? c = some p := hp
  simpa [belowSynced, hparent] using hfree

theorem run_delete (h : e.access = .unrestricted) (ht : d.tree.WellFormed)
    (hc : d.tree.node? c = some n) (hpage : n.kind.isPage = false)
    (hfree : belowSynced d.tree c = false) :
    (operation settings index (.delete c)).run e d = (.ok (.applied, index), d.discard c) := by
  have hcontains : d.tree.contains c = true := Tree.contains_iff.mpr ⟨n, hc⟩
  have htrash := Edit.run_trash h ht hc hpage fun p hp => unlocked_of_belowSynced hfree hp
  simp only [operation, Edit.run_bind, Edit.run_tree, hcontains, hfree, Bool.not_true,
    Bool.false_eq_true, if_false, htrash, Edit.run_pure]

theorem run_update (h : e.access = .unrestricted) (hc : d.tree.node? c = some n)
    (hfree : belowSynced d.tree c = false) (hkind : n.kind.same content.kind = true) :
    (operation settings index (.update key c content)).run e d =
      (.ok (.applied, index), d.setContent c (keepOwner content n)) := by
  have hrun : (Edit.update c (keepOwner content n)).run e d =
      (.ok (), d.setContent c (keepOwner content n)) := Edit.run_update h hc hkind
  simp only [operation, Edit.run_bind, Edit.run_tree, hc, hfree, Bool.false_eq_true, if_false,
    hrun, Edit.run_pure]

/-- A creation puts a new node into place. -/
theorem run_create (h : e.access = .unrestricted) (ht : d.tree.Sound)
    (hfind : destination.find? d.tree index = some ⟨p, before⟩)
    (hunsynced : d.tree.isSynced p = false) (hp : d.tree.node? p = some n)
    (haccepts : n.kind.acceptsChildren = true) (hpage : content.kind.isPage = false)
    (hfragment : content.kind.isFragment = false)
    (hdocument : ∀ page, d.tree.document? p = some page →
      ∃ n, d.tree.node? page = some n ∧ n.kind.isPage) :
    ∃ d' reference, (operation settings index (.create destination key content)).run e d =
        (.ok (.applied, index.insert key d.nextId), d') ∧
      Puts d.tree d'.tree p d.nextId reference ∧ (before = none → reference = none) ∧
      ∃ m, d'.tree.node? d.nextId = some m ∧ m.toContent = Edit.owned e content := by
  have hcreate : (Edit.create (d.tree.document? p) content).run e d =
      (.ok d.nextId, Edit.added e d content (d.tree.document? p)) :=
    Edit.run_create h hpage hdocument
  have hadds := Tree.adds_added ht e hpage (d.tree.document? p)
  generalize Edit.added e d content (d.tree.document? p) = d₁ at hcreate hadds
  have hpage' : (Edit.owned e content).kind.isPage = false := hpage
  set reference := before.filter fun s => d₁.tree.parent? s = some p with hreference
  have hunder₁ : ∀ f, reference = some f → d₁.tree.Under f p := by
    intro f hf
    have hparent : d₁.tree.parent? f = some p := by
      simpa using (Option.filter_eq_some_iff.mp hf).2
    exact hparent
  have hunder : ∀ f, reference = some f → d.tree.Under f p := fun f hf =>
    (hadds.under_iff ht.toWellFormed).mp (hunder₁ f hf)
  have hunlocked : e.Unlocked d₁.tree p := by
    refine .inr ?_
    rwa [Tree.isSynced, hadds.sharing]
  -- Wherever its parent is, the new node is not above it, and can be put below it.
  have hmovable := hadds.movable ht.toWellFormed hp hpage'
  have hadmits : e.Admits d₁.tree p d.nextId reference := by
    refine Editor.admits_of_movable h hadds.sound.toWellFormed hmovable (fun k hk => ?_)
      (fun a b ha hb => ?_) hunder₁ hunlocked fun q hq _ => ?_
    · exact Option.some.inj ((hadds.old hp).symm.trans hk) ▸ haccepts
    · -- The new node belongs to the document of its parent, or to none.
      have hnone : d.tree.document? d.nextId = none := by
        rw [Tree.document?, hadds.fresh]
        rfl
      have hpa : d.tree.document? p = some a :=
        (hadds.document p).elim (fun hd => hd.symm.trans ha) fun hd => hd.symm.trans ha
      rcases hadds.document d.nextId with hd | hd
      · exact absurd ((hd.symm.trans hb).symm.trans hnone) (Option.some_ne_none b)
      · exact Option.some.inj (hpa.symm.trans (hd.symm.trans hb))
    · -- The new node has no parent yet.
      obtain ⟨m, hm, -⟩ := ((hadds.under_iff ht.toWellFormed).mp hq).exists_node
      exact absurd (hm.symm.trans hadds.fresh) (Option.some_ne_none m)
  obtain ⟨m, hm, hcontent⟩ := hadds.new
  have hkind : m.kind = (Edit.owned e content).kind := congrArg Content.kind hcontent
  have hinsert := Edit.run_insertBefore hadmits hm (hkind ▸ hfragment)
    (hadds.ne_reference hunder)
  obtain ⟨m', hm', hcontent', -⟩ :=
    (hmovable.relocated_place hadds.sound.toWellFormed reference).exists_node hm
  refine ⟨d₁.place p d.nextId reference, reference, ?_,
    hadds.puts ht.toWellFormed hp hpage' rfl hunder, ?_, m', hm', hcontent'.trans hcontent⟩
  · simp only [operation, create, Edit.run_bind, Edit.run_tree, hfind, hunsynced,
      Bool.false_eq_true, if_false, hcreate, hinsert, Edit.run_pure, ← hreference]
  · intro hnone
    rw [hreference, hnone]
    rfl

/-- A move puts a node into place. -/
theorem run_move (h : e.Free d.tree) (ht : d.tree.Sound)
    (hfind : destination.find? d.tree index = some ⟨p, before⟩) (hid : id.or index[key]? = some c)
    (hm : Draft.Movable d.tree p c)
    (haccepts : ∀ n, d.tree.node? p = some n → n.kind.acceptsChildren = true)
    (hfragment : ∀ n, d.tree.node? c = some n → n.kind.isFragment = false)
    (hdocument : ∀ a b, d.tree.document? p = some a → d.tree.document? c = some b → a = b)
    (hbefore : ∀ f, before = some f → d.tree.Under f p ∧ f ≠ c)
    (hattempts : 1 ≤ settings.maxAscent) :
    ∃ outcome d', (operation settings index (.move destination key id)).run e d =
        (.ok (outcome, index), d') ∧ Puts d.tree d'.tree p c before := by
  obtain ⟨n, hn, -⟩ := hm.exists_child
  have hcontains : (some c).filter d.tree.contains = some c :=
    Option.filter_eq_some_iff.mpr ⟨rfl, Tree.contains_iff.mpr ⟨n, hn⟩⟩
  -- A node that stands at its place is left alone, and any other one is moved at the first attempt.
  have hmove : ∃ outcome d', (move settings ⟨p, before⟩ c).run e d = (.ok outcome, d') ∧
      Puts d.tree d'.tree p c before := by
    cases hstands : standsAt d.tree ⟨p, before⟩ c with
    | true =>
      refine ⟨.skipped .inPlace, d, ?_, Tree.puts_of_standsAt ht hstands⟩
      simp only [move, Edit.run_bind, Edit.run_tree, h.unsynced, Bool.false_eq_true, if_false,
        hstands, if_true, Edit.run_pure]
    | false =>
      refine ⟨.applied, d.place p c before, ?_, Tree.puts_place ht hm hbefore⟩
      have hadmits : e.Admits d.tree p c before :=
        h.admits ht.toWellFormed hm haccepts hdocument fun f hf => (hbefore f hf).1
      obtain ⟨attempts, hattempts⟩ := Nat.exists_eq_add_of_le' hattempts
      cases before with
      | none =>
        have happend := Edit.run_append hadmits hn (hfragment n hn)
        simp only [move, Edit.run_bind, Edit.run_tree, h.unsynced, Bool.false_eq_true, if_false,
          hstands, Edit.run_pure, hattempts, climb, happend, Bool.not_false, if_true]
      | some f =>
        have hinsert := Edit.run_insertBefore hadmits hn (hfragment n hn)
          fun heq => (hbefore f rfl).2 (Option.some.inj heq).symm
        simp only [move, Edit.run_bind, Edit.run_tree, h.unsynced, Bool.false_eq_true, if_false,
          hstands, Edit.run_pure, hattempts, climb, Edit.run_tryCatch, hinsert, Bool.not_true,
          if_true]
  obtain ⟨outcome, d', hrun, hputs⟩ := hmove
  refine ⟨outcome, d', ?_, hputs⟩
  simp only [operation, Edit.run_bind, Edit.run_tree, hfind, hid, hcontains, hrun, Edit.run_pure]

end Merge.Apply

end ContentTree
