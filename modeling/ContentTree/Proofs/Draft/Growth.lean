import ContentTree.Edit.Component
import ContentTree.Proofs.Draft.Place
import ContentTree.Proofs.Tree.Content
import ContentTree.Snapshot.Load

/-!
# Trees that grow

Copies and loaded snapshots only add nodes. Until they are put into place, the old nodes stay as
they are, and no new node belongs to a document, mirrors a component or stands above an old one.

## Main definitions

* `Draft.Grown`: a draft holds the nodes of a tree unchanged, and new ones outside every document.
* `Draft.NewRoot`: a new node of a given kind without a parent.

## Main results

* `Grown.add`, `Grown.attach`: single steps.
* `grown_copy`, `grown_nodes`: copies of branches, and loaded snapshots, whether or not loading
  fails.
-/

namespace ContentTree

open Relation

namespace Tree

variable {t t' : Tree} {d : Draft} {id c p x y : NodeId} {n : Node}

/-- A tree has all nodes of another as they are there. -/
def Extends (t t' : Tree) : Prop := ∀ ⦃id n⦄, t.node? id = some n → t'.node? id = some n

theorem Extends.refl (t : Tree) : Extends t t := fun _ _ h => h

theorem Extends.trans {t'' : Tree} (h : Extends t t') (h' : Extends t' t'') : Extends t t'' :=
  fun _ _ hn => h' (h hn)

theorem Extends.under (h : Extends t t') (hc : t.Under c p) : t'.Under c p := by
  obtain ⟨n, hn, hp⟩ := hc.exists_node
  exact under_of_node? (h hn) hp

theorem Extends.under_of (h : Extends t t') (hn : t.node? c = some n) (hc : t'.Under c p) :
    t.Under c p := by
  obtain ⟨m, hm, hp⟩ := hc.exists_node
  obtain rfl := Option.some.inj ((h hn).symm.trans hm)
  exact under_of_node? hn hp

theorem Extends.children (h : Extends t t') (hn : t.node? id = some n) :
    t'.children id = t.children id := by
  rw [children_eq (h hn), children_eq hn]

/-- No old node stands below a new one. -/
theorem Extends.not_within (h : Extends t t') (ht : t.WellFormed) (hp : t.node? p = some n)
    (hc : t.node? c = none) : ¬ t'.Within p c := by
  intro hw
  induction hw using ReflTransGen.head_induction_on generalizing n with
  | refl => exact Option.some_ne_none _ (hp.symm.trans hc)
  | head hstep _ ih =>
    obtain ⟨m, hm⟩ := ht.exists_parent (h.under_of hp hstep)
    exact ih hm

/-- The way up from an old node is the same. -/
theorem Extends.within_iff (h : Extends t t') (ht : t.WellFormed) (hx : t.node? x = some n) :
    t'.Within x y ↔ t.Within x y := by
  refine ⟨fun hw => ?_, fun hw => ReflTransGen.mono (fun _ _ => h.under) _ _ hw⟩
  induction hw using ReflTransGen.head_induction_on generalizing n with
  | refl => exact .refl
  | head hstep _ ih =>
    have hstep := h.under_of hx hstep
    obtain ⟨m, hm⟩ := ht.exists_parent hstep
    exact .head hstep (ih hm)

/-- Nobody stands below a node that is not there. -/
theorem WellFormed.not_under_of_none (h : t.WellFormed) (hp : t.node? p = none) :
    ¬ t.Under c p := by
  intro hc
  obtain ⟨n, hn⟩ := h.exists_parent hc
  exact Option.some_ne_none _ (hn.symm.trans hp)

theorem Sound.node?_none_of_lt (h : t.Sound) (hid : t.lastId < id) : t.node? id = none := by
  by_contra hne
  obtain ⟨n, hn⟩ := Option.ne_none_iff_exists'.mp hne
  exact absurd (h.id_le_lastId hn) (Nat.not_le.mpr hid)

theorem extends_addAt (hid : d.tree.node? id = none) (content : Content) :
    Extends d.tree (d.addAt id content).tree := by
  intro x n hn
  rw [Draft.node?_addAt, if_neg, hn]
  rintro rfl
  exact Option.some_ne_none _ (hn.symm.trans hid)

theorem Sound.addAt (h : d.tree.Sound) (hid : d.tree.node? id = none) (content : Content) :
    (d.addAt id content).tree.Sound := by
  have hnew : (d.addAt id content).tree.node? id = some (Node.ofContent id content) := by
    rw [Draft.node?_addAt, if_pos rfl]
  have hold : ∀ {x n}, (d.addAt id content).tree.node? x = some n → n ≠ Node.ofContent id content →
      d.tree.node? x = some n := by
    intro x n hn hne
    rw [Draft.node?_addAt] at hn
    split at hn
    · exact absurd (Option.some.inj hn).symm hne
    · exact hn
  have hext := extends_addAt hid content
  -- The new node is a root without children, so that it changes nothing about the others.
  have hunder : ∀ {c p}, (d.addAt id content).tree.Under c p → d.tree.Under c p := by
    intro c p hc
    obtain ⟨n, hn, hp⟩ := hc.exists_node
    exact under_of_node? (hold hn (by rintro rfl; exact Option.some_ne_none _ hp.symm)) hp
  have hchildren : ∀ q, (d.addAt id content).tree.children q = d.tree.children q := by
    intro q
    by_cases hq : q = id
    · rw [hq, children_eq hnew, children_of_none hid]
      rfl
    · rw [children, Draft.node?_addAt, if_neg hq, children]
  refine
    { keyed := ?keyed, child_iff := ?child_iff, root_position := ?root_position
      acyclic := ?acyclic, page_root := ?page_root, id_le_lastId := ?id_le_lastId
      shadow_page := ?shadow_page }
  case keyed =>
    intro x n hn
    rw [Draft.node?_addAt] at hn
    split at hn
    · next hx => rw [← Option.some.inj hn, hx]; rfl
    · exact h.keyed hn
  case child_iff =>
    intro q i c
    rw [hchildren, h.child_iff]
    refine exists_congr fun n => and_congr_left fun hplace => ⟨fun hn => hext hn, fun hn => ?_⟩
    exact hold hn (by rintro rfl; exact Option.some_ne_none _ hplace.1.symm)
  case root_position =>
    intro x n hn hp
    by_cases hne : n = Node.ofContent id content
    · rw [hne]; rfl
    · exact h.root_position (hold hn hne) hp
  case acyclic =>
    intro x hx
    exact h.acyclic x (TransGen.mono (fun _ _ => hunder) _ _ hx)
  case page_root =>
    intro x n hn hpage
    by_cases hne : n = Node.ofContent id content
    · rw [hne]; rfl
    · exact h.page_root (hold hn hne) hpage
  case id_le_lastId =>
    intro x n hn
    rw [show (d.addAt id content).tree.lastId = max d.tree.lastId id from rfl]
    rw [Draft.node?_addAt] at hn
    split at hn
    · next hx => exact hx ▸ Nat.le_max_right _ _
    · exact (h.id_le_lastId hn).trans (Nat.le_max_left _ _)
  case shadow_page =>
    intro s hs
    obtain ⟨n, hn, hpage⟩ := h.shadow_page hs
    exact ⟨n, hext hn, hpage⟩

end Tree

namespace Draft

open ContentTree.Tree (Extends)

variable {t t' : Tree} {d d' : Draft} {id c p : NodeId} {n m : Node} {content : Content}

/-- A draft holds the nodes of a tree unchanged, besides new nodes outside every document and
without a component. -/
structure Grown (t : Tree) (d : Draft) : Prop where
  sound : d.tree.Sound
  old : Extends t d.tree
  new_document : ∀ {id n}, d.tree.node? id = some n → t.node? id = none → n.document = none
  new_component : ∀ {id n}, d.tree.node? id = some n → t.node? id = none → n.component = none
  sharing : d.tree.sharing = t.sharing
  shadow : d.tree.shadow = t.shadow

/-- A new node of a given kind without a parent, with all new nodes at or below it. -/
structure NewRoot (t : Tree) (d : Draft) (id : NodeId) (kind : Kind) : Prop where
  new : t.node? id = none
  exists_same : ∃ n, d.tree.node? id = some n ∧ n.parent = none ∧ kind.same n.kind = true
  within : ∀ {x n}, d.tree.node? x = some n → t.node? x = none → d.tree.Within x id

theorem NewRoot.of_same {kind kind' : Kind} (h : NewRoot t d id kind')
    (hkind : kind.same kind' = true) : NewRoot t d id kind where
  new := h.new
  exists_same := by
    obtain ⟨n, hn, hroot, hsame⟩ := h.exists_same
    exact ⟨n, hn, hroot, Kind.same_trans hkind hsame⟩
  within := h.within

theorem NewRoot.exists_node {kind : Kind} (h : NewRoot t d id kind) :
    ∃ n, d.tree.node? id = some n ∧ n.parent = none ∧ n.kind.isPage = kind.isPage := by
  obtain ⟨n, hn, hroot, hkind⟩ := h.exists_same
  exact ⟨n, hn, hroot, Kind.isPage_eq_of_same hkind⟩

theorem Grown.trans {d' : Draft} (h : Grown t d) (h' : Grown d.tree d') : Grown t d' where
  sound := h'.sound
  old := h.old.trans h'.old
  new_document {id n} hn ht := by
    cases hd : d.tree.node? id with
    | none => exact h'.new_document hn hd
    | some m =>
      obtain rfl := Option.some.inj ((h'.old hd).symm.trans hn)
      exact h.new_document hd ht
  new_component {id n} hn ht := by
    cases hd : d.tree.node? id with
    | none => exact h'.new_component hn hd
    | some m =>
      obtain rfl := Option.some.inj ((h'.old hd).symm.trans hn)
      exact h.new_component hd ht
  sharing := h'.sharing.trans h.sharing
  shadow := h'.shadow.trans h.shadow

theorem Grown.none_of_none (h : Grown t d) (hid : d.tree.node? id = none) : t.node? id = none := by
  by_contra hne
  obtain ⟨n, hn⟩ := Option.ne_none_iff_exists'.mp hne
  exact Option.some_ne_none _ ((h.old hn).symm.trans hid)

theorem grown_addAt (h : d.tree.Sound) (hid : d.tree.node? id = none) (content : Content) :
    Grown d.tree (d.addAt id content) where
  sound := h.addAt hid content
  old := Tree.extends_addAt hid content
  new_document {x n} hn hx := by
    rw [node?_addAt] at hn
    split at hn
    · rw [← Option.some.inj hn]; rfl
    · exact absurd (hn.symm.trans hx) (Option.some_ne_none _)
  new_component {x n} hn hx := by
    rw [node?_addAt] at hn
    split at hn
    · rw [← Option.some.inj hn]; rfl
    · exact absurd (hn.symm.trans hx) (Option.some_ne_none _)
  sharing := rfl
  shadow := rfl

theorem newRoot_addAt (hid : d.tree.node? id = none) (content : Content) :
    NewRoot d.tree (d.addAt id content) id content.kind where
  new := hid
  exists_same :=
    ⟨Node.ofContent id content, by rw [node?_addAt, if_pos rfl], rfl, content.kind.same_refl⟩
  within {x n} hn hx := by
    rw [node?_addAt] at hn
    split at hn
    · next hxid => exact hxid ▸ .refl
    · exact absurd (hn.symm.trans hx) (Option.some_ne_none _)

/-- Where a new root is put among older nodes, contents and components stay. -/
theorem Grown.relocated_attach {kind : Kind} (h : Grown d.tree d') (hd : d.tree.WellFormed)
    (hp : d.tree.node? p = some m) (hc : NewRoot d.tree d' c kind) (i : Nat) :
    Relocated d'.tree (d'.attach p c i).tree := by
  obtain ⟨n, hn, hroot, -⟩ := hc.exists_node
  have hne : p ≠ c := fun he => h.old.not_within hd hp hc.new (he ▸ .refl)
  exact ⟨_, rewritten_attach h.sound.toWellFormed hn hroot hne (h.old hp),
    fun _ => ⟨rfl, rfl, rfl⟩⟩

/-- A new root is put among the children of a node that was there before it. Nothing changes but
the two nodes and the siblings, all of them new. -/
theorem Grown.attach {k k' : Kind} (h : Grown t d) (h' : Grown d.tree d') (hp : NewRoot t d p k)
    (hc : NewRoot d.tree d' c k') (hpage : k'.isPage = false) (i : Nat) (ht : t.WellFormed) :
    Grown t (d'.attach p c i) ∧ NewRoot t (d'.attach p c i) p k := by
  obtain ⟨m, hm, hmroot, hmkind⟩ := hp.exists_same
  obtain ⟨n, hn, hnroot, hnpage⟩ := hc.exists_node
  have hm' := h'.old hm
  have hpc : ¬ d'.tree.Within p c := h'.old.not_within h.sound.toWellFormed hm hc.new
  have hne : p ≠ c := fun he => hpc (he ▸ .refl)
  have hg := rewritten_attach (i := i) h'.sound.toWellFormed hn hnroot hne hm'
  have hpid := h'.sound.keyed hm'
  have hgrown := h.trans h'
  refine ⟨⟨h'.sound.attach hm' hn hnroot (hnpage.trans hpage) hpc, ?_, ?_, ?_, ?_, ?_⟩, hp.new,
    ⟨_, hg.node?_of_some hm', by simp [attached, hpid, hne, hmroot], hmkind⟩, ?_⟩
  · intro x y hy
    obtain rfl := hgrown.sound.keyed (hgrown.old hy)
    -- An old node is neither of the two, and no sibling either: its parent is old.
    have hxp : y.id ≠ p := by
      rintro rfl
      exact Option.some_ne_none _ (hy.symm.trans hp.new)
    have hxc : y.id ≠ c := by
      rintro rfl
      exact Option.some_ne_none _ (hy.symm.trans (h.none_of_none hc.new))
    have hparent : y.parent ≠ some p := by
      intro hyp
      exact ht.not_under_of_none hp.new (Tree.under_of_node? hy hyp)
    rw [hg.node?_of_some (hgrown.old hy)]
    simp [attached, hxp, hxc, hparent]
  · intro x y hy hx
    obtain ⟨z, hz, rfl⟩ := hg.exists_of_some hy
    exact (hgrown.new_document hz hx :)
  · intro x y hy hx
    obtain ⟨z, hz, rfl⟩ := hg.exists_of_some hy
    exact (hgrown.new_component hz hx :)
  · exact hg.sharing.trans hgrown.sharing
  · exact hg.shadow.trans hgrown.shadow
  · -- The node put in comes under the root, and nobody else changes the parent.
    intro x y hy hx
    have hunder : ∀ {x y}, d'.tree.Under x y → (d'.attach p c i).tree.Under x y := by
      intro x y hxy
      rw [under_attached hg h'.sound.keyed hn, if_neg]
      · exact hxy
      · rintro rfl
        rw [Tree.Under, Tree.parent?_eq hn, hnroot] at hxy
        exact Option.some_ne_none _ hxy.symm
    have hmono : ∀ {x y}, d'.tree.Within x y → (d'.attach p c i).tree.Within x y :=
      fun hw => ReflTransGen.mono (fun _ _ => hunder) _ _ hw
    obtain ⟨z, hz, -⟩ := hg.exists_of_some hy
    cases hd : d.tree.node? x with
    | some n => exact hmono ((h'.old.within_iff h.sound.toWellFormed hd).mpr (hp.within hd hx))
    | none =>
      refine (hmono (hc.within hz hd)).tail ?_
      rw [under_attached hg h'.sound.keyed hn, if_pos rfl]

/-- When a new branch enters a document, the old nodes are not concerned. -/
theorem Grown.setDocument {k : Kind} (h : Grown t d) (ht : t.WellFormed) (hr : NewRoot t d p k)
    (document : Option NodeId) :
    Extends t (d.setDocument p document).tree ∧ NewRoot t (d.setDocument p document) p k := by
  have hg := rewritten_setDocument h.sound.keyed p document
  have hs := still_documented d.tree (d.tree.branchIds p) document
  obtain ⟨r, hr', hroot, hkind⟩ := hr.exists_same
  refine ⟨fun x n hn => ?_, hr.new, ⟨_, hg.node?_of_some hr', ?_⟩, fun {x n} hn hx => ?_⟩
  · have hout : n.id ∉ d.tree.branchIds p := by
      rw [ht.keyed hn, h.sound.mem_branchIds_iff (h.old hn)]
      exact h.old.not_within ht hn hr.new
    rw [hg.node?_of_some (h.old hn)]
    simp [documented, hout]
  · unfold documented
    split <;> exact ⟨hroot, hkind⟩
  · obtain ⟨m, hm, -⟩ := hg.exists_of_some hn
    rw [hg.within_eq hs]
    exact hr.within hm hx

theorem node?_nextId (h : d.tree.Sound) : d.tree.node? d.nextId = none :=
  h.node?_none_of_lt (Nat.lt_succ_self _)

/-! ### Copies -/

theorem same_copied (owner : Option String) (c : Content) :
    c.kind.same (c.copied owner).kind = true := by
  obtain ⟨kind, -, -⟩ := c
  cases kind <;> rfl

end Draft

/-- No node of a branch below its root is a page. -/
def Branch.InnerPlain (b : Branch) : Prop := ∀ n ∈ b.inner, n.kind.isPage = false

theorem Branch.InnerPlain.of_mem {n : Node} {cs : List Branch} {c : Branch}
    (h : InnerPlain ⟨n, cs⟩) (hc : c ∈ cs) : c.node.kind.isPage = false ∧ c.InnerPlain := by
  have hsub : ∀ m ∈ c.nodes, m.kind.isPage = false := fun m hm =>
    h m (mem_allNodes.mpr ⟨c, hc, hm⟩)
  exact ⟨hsub _ c.node_mem_nodes, fun m hm => hsub m (mem_nodes_of_mem_inner hm)⟩

/-- In a well-formed tree only the root of a branch can be a page. -/
theorem Tree.WellFormed.innerPlain {t : Tree} {b : Branch} (h : t.WellFormed) (hb : b.Shows t) :
    b.InnerPlain := by
  intro m hm
  obtain ⟨p, hp, -⟩ := (hb.below_of_mem_inner h hm).exists_under
  exact h.not_page_of_under hp (hb.node?_of_mem (Branch.mem_nodes_of_mem_inner hm))

namespace Draft

open ContentTree.Tree (Extends)

variable {t : Tree} {d d' : Draft} {id p : NodeId} {owner : Option String}

/-- Copies are new roots. -/
def CopyGrows (owner : Option String) (b : Branch) : Prop :=
  ∀ d : Draft, d.tree.Sound → b.InnerPlain →
    Grown d.tree (copy owner b d).2 ∧
      NewRoot d.tree (copy owner b d).2 (copy owner b d).1 b.node.kind

theorem grown_copyChildren {kind : Kind} (ht : t.WellFormed) (cs : List Branch)
    (hcs : ∀ c ∈ cs, CopyGrows owner c ∧ c.node.kind.isPage = false ∧ c.InnerPlain) :
    ∀ d, Grown t d → NewRoot t d p kind →
      Grown t (copy.copyChildren owner p cs d) ∧
        NewRoot t (copy.copyChildren owner p cs d) p kind := by
  induction cs with
  | nil => exact fun d hd hp => ⟨hd, hp⟩
  | cons c cs ih =>
    intro d hd hp
    obtain ⟨hgrows, hpage, hplain⟩ := hcs c List.mem_cons_self
    obtain ⟨hcopy, hnew⟩ := hgrows d hd.sound hplain
    obtain ⟨hd', hp'⟩ := hd.attach hcopy hp hnew hpage
      ((copy owner c d).2.tree.children p).length ht
    exact ih (fun c hc => hcs c (List.mem_cons_of_mem _ hc)) _ hd' hp'

/-- Copying a branch adds new nodes only, with the copy of the root as a new root. -/
theorem grown_copy (owner : Option String) (b : Branch) : CopyGrows owner b := by
  induction b with
  | mk n cs ih =>
    intro d hd hplain
    have hid := node?_nextId hd
    have hadd := grown_addAt hd hid (n.toContent.copied owner)
    have hnew := (newRoot_addAt hid (n.toContent.copied owner)).of_same
      (same_copied owner n.toContent)
    exact grown_copyChildren hd.toWellFormed cs
      (fun c hc => ⟨ih c hc, hplain.of_mem hc⟩) _ hadd hnew

end Draft

end ContentTree
