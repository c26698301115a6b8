import ContentTree.Proofs.Edit.Composed

/-!
# Children of synced nodes

Operations examine the parents whose children they are about to change. Where the policy refuses
changes below synced nodes, an operation therefore leaves the children of every synced node alone,
whether or not it is refused in the end. There are two exceptions. Replacing a node by an empty
fragment takes the node out without any such examination, and sharing a node puts its copy into the
shadow document even where the shadow page itself is synced.

## Main definitions

* `Tree.Synced`: a node of a sound tree that is synced.
* `Draft.Spares`: a synced node loses children at most, or none where the policy refuses changes.
* `Edit.Guarded`: the single operations, without the two exceptions.

## Main results

* `Edit.spares_insert`, `Edit.spares_normalize` and others: what each operation spares.
* `Guarded.keepsChildren`: the children of a synced node stay as they are.
* `Edit.run_replace_empty`: the first exception.
-/

namespace ContentTree

open Relation

namespace Tree

variable {t : Tree} {z c : NodeId} {e : Editor}

/-- A node of a sound tree that is a mirror or a mirrored component. -/
structure Synced (t : Tree) (z : NodeId) : Prop where
  sound : t.Sound
  exists_node : ∃ n, t.node? z = some n
  synced : t.isSynced z = true

theorem Synced.not_unlocked (h : t.Synced z) (he : e.syncedParents = .reject) :
    ¬ e.Unlocked t z := by
  rintro (hallow | hfree)
  · exact nomatch he.symm.trans hallow
  · exact Bool.false_ne_true (hfree.symm.trans h.synced)

/-- A node whose parent may lose children is no child of a synced node. -/
theorem Synced.not_mem_children (h : t.Synced z) (he : e.syncedParents = .reject)
    (hc : ∀ p, t.Under c p → e.Unlocked t p) : c ∉ t.children z := fun hmem =>
  h.not_unlocked he (hc z (h.sound.mem_children_iff.mp hmem))

/-- A fragment without children. -/
def IsEmptyFragment (t : Tree) (id : NodeId) : Prop :=
  ∃ n, t.node? id = some n ∧ n.kind.isFragment = true ∧ n.children = []

end Tree

namespace Draft

open ContentTree.Tree (Extends KeepsKinds Synced)

variable {d d' : Draft} {e : Editor} {z p c id : NodeId} {n : Node} {reference : Option NodeId}

/-- A synced node stays synced and loses children at most. Where the policy refuses changes below
synced nodes, it keeps all of them. -/
structure Spares (e : Editor) (z : NodeId) (d d' : Draft) : Prop where
  synced : d.tree.Synced z → d'.tree.Synced z
  sublist : (d'.tree.children z).Sublist (d.tree.children z)
  children_eq : e.syncedParents = .reject → d'.tree.children z = d.tree.children z

instance : IsPreorder Draft (Spares e z) where
  refl _ := ⟨fun h => h, .refl _, fun _ => rfl⟩
  trans _ _ _ h h' := ⟨h'.synced ∘ h.synced, h'.sublist.trans h.sublist, fun he =>
    (h'.children_eq he).trans (h.children_eq he)⟩

theorem Spares.of_eq (hsound : d'.tree.Sound) (hkinds : KeepsKinds d.tree d'.tree)
    (hsharing : d'.tree.sharing = d.tree.sharing)
    (hchildren : d'.tree.children z = d.tree.children z) : Spares e z d d' where
  synced h :=
    let ⟨_, hn⟩ := h.exists_node
    ⟨hsound, (hkinds hn).imp fun _ => And.left, by
      rw [Tree.isSynced, hsharing]
      exact h.synced⟩
  sublist := hchildren ▸ .refl _
  children_eq _ := hchildren

/-- A node that leaves its parent leaves no synced node where the parent was examined. -/
theorem Spares.of_erase (hsound : d'.tree.Sound) (hmoved : Relocated d.tree d'.tree)
    (hchildren : d'.tree.children z = (d.tree.children z).erase c)
    (hlocked : e.syncedParents = .reject → c ∉ d.tree.children z) : Spares e z d d' where
  synced h :=
    let ⟨_, hn⟩ := h.exists_node
    ⟨hsound, (hmoved.exists_node hn).imp fun _ => And.left, by
      rw [Tree.isSynced, hmoved.sharing]
      exact h.synced⟩
  sublist := hchildren ▸ List.erase_sublist
  children_eq he := by rw [hchildren, List.erase_of_not_mem (hlocked he)]

theorem spares_place (hz : d.tree.Synced z) (ha : e.Admits d.tree p c reference)
    (hp : e.syncedParents = .reject ∨ z ≠ p) : Spares e z d (d.place p c reference) := by
  have hwf := hz.sound.toWellFormed
  have hm := movable_of_admits hwf ha
  have hne : z ≠ p := by
    rcases hp with he | hne
    · rintro rfl
      exact hz.not_unlocked he ha.unlocked
    · exact hne
  refine .of_erase (c := c) (hz.sound.place hm reference) (hm.relocated_place hwf reference) ?_ ?_
  · rw [hm.children_place hwf, if_neg hne]
  · intro he hmem
    have hc := hwf.mem_children_iff.mp hmem
    exact hz.not_unlocked he (ha.unlocked_old z hc hne)

theorem spares_detach (hz : d.tree.Synced z)
    (hc : e.syncedParents = .reject → c ∉ d.tree.children z) : Spares e z d (d.detach c) :=
  .of_erase (hz.sound.detach c) (relocated_detach hz.sound.toWellFormed c)
    (children_detach hz.sound.toWellFormed c z) hc

theorem spares_setDocument (hz : d.tree.Synced z) (id : NodeId) (document : Option NodeId) :
    Spares e z d (d.setDocument id document) := by
  have hwf := hz.sound.toWellFormed
  have hmoved := relocated_setDocument hwf id document
  exact .of_eq (hz.sound.setDocument id document) (.of_relocated hmoved)
    hmoved.sharing (children_setDocument hwf id document z)

theorem spares_discard (hz : d.tree.Synced z)
    (hc : e.syncedParents = .reject → c ∉ d.tree.children z) : Spares e z d (d.discard c) := by
  have hfirst := spares_detach hz hc
  exact trans_of (Spares e z) hfirst (spares_setDocument (hfirst.synced hz) c none)

theorem spares_setContent {content : Content} (hz : d.tree.Synced z)
    (hchange : d.Change e (d.setContent id content)) : Spares e z d (d.setContent id content) := by
  have hg := rewritten_setContent hz.sound.keyed id content
  refine .of_eq (hchange.sound hz.sound) (hchange.keepsKinds hz.sound) hg.sharing
    (hg.children (fun m => ?_) z)
  unfold at_
  split <;> rfl

/-- New nodes concern no old one. -/
theorem spares_grown {kind : Kind} (hz : d.tree.Synced z) (h : Grown d.tree d')
    (hnew : NewRoot d.tree d' id kind) (document : Option NodeId) :
    Spares e z d (d'.setDocument id document) := by
  obtain ⟨hext, -⟩ := h.setDocument hz.sound.toWellFormed hnew document
  have hsharing := (rewritten_setDocument h.sound.keyed id document).sharing.trans h.sharing
  exact .of_eq (h.sound.setDocument id document) (.of_extends hext) hsharing
    (hext.children hz.exists_node.choose_spec)

end Draft

namespace Edit

open ContentTree.Tree (Synced)
open ContentTree.Draft (Spares)

variable {e : Editor} {d d' : Draft} {z p c id old : NodeId} {n : Node}
  {reference : Option NodeId}

/-! ### Inserting and removing -/

section Insert

variable (hz : d.tree.Synced z) (hp : e.syncedParents = .reject ∨ z ≠ p)
include hz hp

theorem spares_insert (c : NodeId) (reference : Option NodeId) :
    Leads (Spares e z) e d (insert p c reference) :=
  leads_insert fun _ _ _ h ha => Draft.spares_place (h.synced hz) ha hp

theorem spares_append (c : NodeId) : Leads (Spares e z) e d (append p c) :=
  .bind (spares_insert hz hp c none) fun _ _ _ _ => .pure c

theorem spares_insertBefore (c : NodeId) (reference : Option NodeId) :
    Leads (Spares e z) e d (insertBefore p c reference) :=
  .bind (spares_insert hz hp c reference) fun _ _ _ _ => .pure c

end Insert

theorem spares_remove (hz : d.tree.Synced z) : Leads (Spares e z) e d (remove p c) := by
  refine .check_bind fun _ h => ?_
  simp only [bind_unit_eq_ok, Tree.requireChild_eq_ok, Editor.keepsSynced_eq_ok] at h
  obtain ⟨-, hchild, hfree⟩ := h
  refine .bind (.write (Draft.spares_detach hz fun he => ?_)) fun _ _ _ _ => .pure c
  exact hz.not_mem_children he fun q hq => hchild.eq hq ▸ hfree

/-! ### Replacing -/

theorem unlocked_of_insertOne {u : Unit} (h : (insertOne p c reference).run e d = (.ok u, d')) :
    e.Unlocked d.tree p := by
  obtain ⟨_, _, hcheck, -⟩ := run_bind_eq_ok.mp h
  exact (Editor.admits_eq_ok.mp (run_check_eq_ok.mp hcheck).1).unlocked

/-- Whoever has put something into place has examined the new parent before. -/
theorem unlocked_of_insert {u : Unit} (h : (insert p c reference).run e d = (.ok u, d'))
    (hc : ¬ d.tree.IsEmptyFragment c) : e.Unlocked d.tree p := by
  obtain ⟨n, d₁, hcheck, h⟩ := run_bind_eq_ok.mp h
  obtain ⟨hn, rfl⟩ := run_check_eq_ok.mp hcheck
  split at h
  · next hfragment =>
    obtain ⟨_, d₁, hcheck, h⟩ := run_bind_eq_ok.mp h
    obtain ⟨-, rfl⟩ := run_check_eq_ok.mp hcheck
    cases hcs : n.children with
    | nil => exact absurd ⟨n, Tree.require_eq_ok.mp hn, hfragment, hcs⟩ hc
    | cons first rest =>
      rw [hcs] at h
      obtain ⟨_, _, hfirst, -⟩ := run_bind_eq_ok.mp h
      exact unlocked_of_insertOne hfirst
  · exact unlocked_of_insertOne h

theorem spares_replace (hz : d.tree.Synced z) (he : e.syncedParents = .reject)
    (hc : ¬ d.tree.IsEmptyFragment c) : Leads (Spares e z) e d (replace p c old) := by
  refine .check_bind fun _ h => ?_
  obtain ⟨-, hchild⟩ := bind_unit_eq_ok.mp h
  rw [Tree.requireChild_eq_ok] at hchild
  split
  · refine .bind (spares_insert hz (.inl he) c (some old)) fun _ d' hrun hspared => ?_
    -- The node to be replaced stood below another node than `z`, because that one is unlocked.
    have hfree := unlocked_of_insert hrun hc
    have hold : old ∉ d'.tree.children z := by
      rw [hspared.children_eq he]
      exact hz.not_mem_children he fun q hq => hchild.eq hq ▸ hfree
    exact .bind (.write (Draft.spares_detach (hspared.synced hz) fun _ => hold)) fun _ _ _ _ =>
      .pure old
  · exact .pure old

/-- An empty fragment takes the place of a node: the node is gone, whatever the policy says of its
parent. -/
theorem run_replace_empty (hw : e.mayWrite d.tree p = .ok ())
    (hp : d.tree.requireContainer p = .ok ()) (hold : d.tree.Under old p)
    (hc : d.tree.IsEmptyFragment c) (hne : p ≠ c) (hanc : d.tree.isAncestor c p = false)
    (hco : c ≠ old) : (replace p c old).run e d = (.ok old, d.detach old) := by
  obtain ⟨n, hn, hfragment, hcs⟩ := hc
  have hinsert : (insert p c (some old)).run e d = (.ok (), d) := by
    refine run_bind_eq_ok.mpr ⟨n, d, run_check_eq_ok.mpr ⟨Tree.require_eq_ok.mpr hn, rfl⟩, ?_⟩
    rw [if_pos hfragment, hcs]
    refine run_bind_eq_ok.mpr ⟨(), d, run_check_eq_ok.mpr ⟨?_, rfl⟩, rfl⟩
    rw [bind_unit_eq_ok, bind_unit_eq_ok, ite_throw_eq_ok, hanc]
    exact ⟨hw, hp, by simpa using hne⟩
  refine run_bind_eq_ok.mpr ⟨(), d, run_check_eq_ok.mpr ⟨?_, rfl⟩, ?_⟩
  · exact bind_unit_eq_ok.mpr ⟨hw, Tree.requireChild_eq_ok.mpr hold⟩
  · rw [if_pos hco]
    exact run_bind_eq_ok.mpr ⟨(), d, hinsert, rfl⟩

/-! ### Nodes and documents -/

theorem spares_clone (hz : d.tree.Synced z) (deep : Bool) :
    Leads (Spares e z) e d (clone id deep) := by
  refine .check_bind fun n h => .read_bind (.tree_bind (.writeNode ?_))
  have hn := Tree.require_eq_ok.mp h
  have hplain : (if deep then (d.tree.branch? id).getD ⟨n, []⟩ else ⟨n, []⟩ :
      Branch).InnerPlain := by
    cases deep
    · exact Draft.innerPlain_leaf n
    · exact (Draft.getD_branch hz.sound.toWellFormed hn).2
  obtain ⟨hgrown, hnew⟩ := Draft.grown_copy e.principal.name? _ d hz.sound hplain
  exact Draft.spares_grown hz hgrown hnew _

theorem spares_create (hz : d.tree.Synced z) (document : Option NodeId) (content : Content) :
    Leads (Spares e z) e d (create document content) := by
  have hid := Draft.node?_nextId hz.sound
  refine leads_create rfl (fun _ => ?_) fun _ _ => ?_
  · have hgrown := Draft.grown_addAt hz.sound hid
      { content with properties := { content.properties with owner := e.principal.name? } }
    exact .of_eq hgrown.sound (.of_extends hgrown.old) hgrown.sharing
      (hgrown.old.children hz.exists_node.choose_spec)
  · exact Draft.spares_grown hz (Draft.grown_addAt hz.sound hid _) (Draft.newRoot_addAt hid _)
      document

theorem spares_adopt (hz : d.tree.Synced z) (page : NodeId) :
    Leads (Spares e z) e d (adopt page id) := by
  refine .check_bind fun _ h => ?_
  simp only [bind_eq_ok, ite_throw_bind_eq_ok, Editor.keepsSyncedParent_eq_ok] at h
  obtain ⟨_, -, _, -, _, -, -, hfree⟩ := h
  have hleft := Draft.spares_detach (c := id) hz fun he => hz.not_mem_children he hfree
  exact .bind (.write (trans_of (Spares e z) hleft
    (Draft.spares_setDocument (hleft.synced hz) id (some page)))) fun _ _ _ _ => .pure id

theorem spares_importNode (hz : d.tree.Synced z) (page : NodeId) (deep : Bool) :
    Leads (Spares e z) e d (importNode page id deep) :=
  .check_bind fun _ _ => .bind (spares_clone hz deep) fun _ _ _ h => spares_adopt (h.synced hz) page

theorem spares_trash (hz : d.tree.Synced z) : Leads (Spares e z) e d (trash id) := by
  refine .check_bind fun _ h => .write (Draft.spares_discard hz fun he => ?_)
  refine hz.not_mem_children he fun q hq => ?_
  simp only [bind_eq_ok, ite_throw_bind_eq_ok] at h
  obtain ⟨n, -, -, h⟩ := h
  rw [show d.tree.parent? id = some q from hq] at h
  exact Editor.keepsSynced_eq_ok.mp (bind_unit_eq_ok.mp h).2

theorem spares_update (hz : d.tree.Synced z) (content : Content) :
    Leads (Spares e z) e d (update id content) := by
  refine .check_bind fun _ h => .write (Draft.spares_setContent hz ?_)
  simp only [bind_eq_ok, Tree.require_eq_ok, ite_throw_eq_ok] at h
  obtain ⟨_, hw, n, hn, hk⟩ := h
  exact .recast hn (by simpa using hk) (Editor.writes_of_mayWrite hw)

end Edit

/-! ### Joining texts -/

namespace Draft

open ContentTree.Tree (Synced)

variable {d d' : Draft} {e : Editor} {z c id : NodeId}

/-- A draft that spares a synced node, and in which no node has a parent it did not have before. -/
structure Thins (e : Editor) (z : NodeId) (d d' : Draft) : Prop extends Spares e z d d' where
  under : ∀ {x y}, d'.tree.Under x y → d.tree.Under x y

instance : IsPreorder Draft (Thins e z) where
  refl d := ⟨refl_of (Spares e z) d, fun h => h⟩
  trans _ _ _ h h' :=
    ⟨trans_of (Spares e z) h.toSpares h'.toSpares, fun hu => h.under (h'.under hu)⟩

theorem thins_discard (hz : d.tree.Synced z)
    (hc : e.syncedParents = .reject → c ∉ d.tree.children z) : Thins e z d (d.discard c) where
  toSpares := spares_discard hz hc
  under h := by
    have hwf := hz.sound.toWellFormed
    rw [discard, under_setDocument (hwf.detach c), under_detach hwf] at h
    exact h.2

theorem thins_setContent {content : Content} (hz : d.tree.Synced z)
    (hchange : d.Change e (d.setContent id content)) : Thins e z d (d.setContent id content) where
  toSpares := spares_setContent hz hchange
  under {x _} h := by
    have hset := rewritten_setContent hz.sound.keyed id content
    exact (parent?_of_at hset.node? (fun _ => rfl) x).symm.trans h

end Draft

namespace Edit

open ContentTree.Tree (Synced)
open ContentTree.Draft (Thins)

variable {e : Editor} {d d' : Draft} {t : Tree} {z p first second : NodeId}

theorem thins_joinTexts (hz : d.tree.Synced z) (hsecond : ∀ q, d.tree.Under second q → q = p) :
    Leads (Thins e z) e d (joinTexts p first second) := by
  refine .check_bind fun content h => .write ?_
  simp only [bind_eq_ok, Tree.require_eq_ok, Editor.keepsSynced_eq_ok] at h
  obtain ⟨head, hhead, tail, -, _, hw, _, hfree, hret⟩ := h
  have hsame : head.kind.same content.kind = true := by
    rw [← Except.ok.inj hret]
    exact same_joined head.kind tail.kind
  have hrecast := Draft.thins_setContent hz (.recast hhead hsame (Editor.writes_of_mayWrite hw))
  refine trans_of (Thins e z) hrecast (Draft.thins_discard (hrecast.synced hz) fun he => ?_)
  rw [hrecast.children_eq he]
  exact hz.not_mem_children he fun q hq => hsecond q hq ▸ hfree

theorem thins_normalizeBranch (ht : t.WellFormed) (b : Branch) (hz : d.tree.Synced z)
    (hb : b.Shows t) (hunder : ∀ {x y}, d.tree.Under x y → t.Under x y) :
    Leads (Thins e z) e d (normalizeBranch b) := by
  -- The parents of nodes are the ones in the tree that the branch was read from, or none.
  refine leads_normalizeBranch (R := fun _ => Thins e z) (P := fun b d =>
    d.tree.Synced z ∧ b.Shows t ∧ ∀ {x y}, d.tree.Under x y → t.Under x y) ?_ (fun _ _ h => h) ?_
    b d ⟨hz, hb, hunder⟩
  · rintro n cs c d d' ⟨hz, hb, hunder⟩ hc hd
    exact ⟨hd.synced hz, hb.of_mem_children hc, fun hu => hunder (hd.under hu)⟩
  · rintro n cs c d d' first ⟨hz, hb, hunder⟩ - hc - hd
    have hchild : t.Under c.id n.id := hb.under_of_mem_children ht hc
    exact thins_joinTexts (hd.synced hz) fun q hq => (hunder (hd.under hq)).eq hchild

theorem spares_normalize (hz : d.tree.Synced z) (id : NodeId) :
    Leads (Draft.Spares e z) e d (normalize id) := by
  have hthins : Leads (Thins e z) e d (normalize id) := by
    refine .tree_bind ?_
    split
    · next b hb =>
      have hwf := hz.sound.toWellFormed
      exact thins_normalizeBranch hwf b hz (hwf.branch?_eq_some_iff.mp hb).2 fun hu => hu
    · exact .pure ()
  exact hthins.toSpares

end Edit

/-! ### Sharing -/

namespace Draft

variable {d : Draft} {z : NodeId} {n : Node} {b : Branch}

/-- A node has the children it had before. -/
def KeepsChildren (z : NodeId) (d d' : Draft) : Prop := d'.tree.children z = d.tree.children z

instance : IsPreorder Draft (KeepsChildren z) where
  refl _ := rfl
  trans _ _ _ h h' := h'.trans h

theorem keepsChildren_link (hk : d.tree.Keyed) (mirror component : NodeId) :
    KeepsChildren z d (d.link mirror component) :=
  children_of_at (node?_link hk mirror component) (fun _ => rfl) z

theorem keepsChildren_unlink (hk : d.tree.Keyed) (mirror : NodeId) :
    KeepsChildren z d (d.unlink mirror) :=
  children_of_at (node?_unlink hk mirror) (fun _ => rfl) z

/-- Only the shadow page gets another child when a node is shared. -/
theorem keepsChildren_shareBranch (owner : Option String) (h : d.tree.Sound) (hb : b.InnerPlain)
    (hpage : b.node.kind.isPage = false) (hn : d.tree.node? z = some n)
    (hz : d.tree.shadow ≠ some z) : KeepsChildren z d (Edit.shareBranch owner b d).2 := by
  obtain ⟨m, r, hsound, hext, hm, hr, -, hroot, hrpage, hout⟩ := sharing_ready owner h hb hpage
  have hshared := sound_shared owner h hb hpage
  have hne : z ≠ d.ensureShadow.1 := by
    rintro rfl
    unfold ensureShadow at hn hz
    cases hs : d.tree.shadow with
    | some s => exact hz (by simp [hs])
    | none =>
      simp only [hs] at hn
      exact Option.some_ne_none _ (hn.symm.trans (node?_nextId h))
  rw [shareBranch_eq]
  refine (keepsChildren_link (hshared.setDocument _ _).keyed _ _).trans ?_
  refine (children_setDocument hshared.toWellFormed _ _ z).trans ?_
  refine (children_attached (rewritten_attach hsound.toWellFormed hr hroot
    (fun he => hout (he ▸ .refl)) hm) hsound.keyed hm z).trans ?_
  rw [if_neg hne, hext.children hn]

end Draft

/-! ### Single operations -/

namespace Edit

open ContentTree.Draft (KeepsChildren)

variable {α : Type} {e : Editor} {d : Draft} {t : Tree} {z id : NodeId} {n : Node} {x : Edit α}

theorem keepsChildren_share (h : d.tree.Sound) (hn : d.tree.node? z = some n)
    (hz : d.tree.shadow ≠ some z) : Leads (KeepsChildren z) e d (share id) := by
  refine .check_bind fun m hcheck => .read_bind (.tree_bind (.writeNode ?_))
  simp only [bind_eq_ok, Tree.require_eq_ok, ite_throw_bind_eq_ok] at hcheck
  obtain ⟨_, -, -, m, hm, hpage, hret⟩ := hcheck
  obtain rfl := Except.ok.inj hret
  obtain ⟨hnode, hplain⟩ := Draft.getD_branch h.toWellFormed hm
  refine Draft.keepsChildren_shareBranch _ h hplain ?_ hn hz
  rw [hnode]
  simpa using hpage

/-- The single operations on a tree, with two exceptions: no node is replaced by an empty fragment,
and no node is shared while the shadow page itself is synced. -/
inductive Guarded (t : Tree) : {α : Type} → Edit α → Prop
  | append (parent child : NodeId) : Guarded t (append parent child)
  | insertBefore (parent child : NodeId) (reference : Option NodeId) :
    Guarded t (insertBefore parent child reference)
  | replace (parent child old : NodeId) (filled : ¬ t.IsEmptyFragment child) :
    Guarded t (replace parent child old)
  | remove (parent child : NodeId) : Guarded t (remove parent child)
  | clone (id : NodeId) (deep : Bool) : Guarded t (clone id deep)
  | normalize (id : NodeId) : Guarded t (normalize id)
  | create (document : Option NodeId) (content : Content) : Guarded t (create document content)
  | adopt (page id : NodeId) : Guarded t (adopt page id)
  | importNode (page id : NodeId) (deep : Bool) : Guarded t (importNode page id deep)
  | trash (id : NodeId) : Guarded t (trash id)
  | update (id : NodeId) (content : Content) : Guarded t (update id content)
  | link (mirror component : NodeId) : Guarded t (link mirror component)
  | unlink (mirror : NodeId) : Guarded t (unlink mirror)
  | share (id : NodeId) (unsynced : ∀ s, t.shadow = some s → t.isSynced s = false) :
    Guarded t (share id)

/-- Where the policy refuses changes below synced nodes, a single operation leaves the children of
every synced node as they are. -/
theorem Guarded.keepsChildren (hx : x.Guarded d.tree) (he : e.syncedParents = .reject)
    (hz : d.tree.Synced z) : Leads (KeepsChildren z) e d x := by
  cases hx with
  | append p c => exact (spares_append hz (.inl he) c).children_eq he
  | insertBefore p c reference =>
    exact (spares_insertBefore hz (.inl he) c reference).children_eq he
  | replace p c old filled => exact (spares_replace hz he filled).children_eq he
  | remove p c => exact (spares_remove hz).children_eq he
  | clone id deep => exact (spares_clone hz deep).children_eq he
  | normalize id => exact (spares_normalize hz id).children_eq he
  | create document content => exact (spares_create hz document content).children_eq he
  | adopt page id => exact (spares_adopt hz page).children_eq he
  | importNode page id deep => exact (spares_importNode hz page deep).children_eq he
  | trash id => exact (spares_trash hz).children_eq he
  | update id content => exact (spares_update hz content).children_eq he
  | link mirror component =>
    exact .check_bind fun _ _ => .write (Draft.keepsChildren_link hz.sound.keyed mirror component)
  | unlink mirror =>
    exact .check_bind fun _ _ => .tree_bind (.bind
      (.write (Draft.keepsChildren_unlink hz.sound.keyed mirror)) fun _ _ _ _ => .pure _)
  | share id unsynced =>
    refine keepsChildren_share hz.sound hz.exists_node.choose_spec fun hs => ?_
    exact Bool.false_ne_true ((unsynced z hs).symm.trans hz.synced)

theorem Guarded.composed (hx : x.Guarded t) : x.Composed := by
  cases hx with
  | append p c => exact .append p c
  | insertBefore p c reference => exact .insertBefore p c reference
  | replace p c old _ => exact .replace p c old
  | remove p c => exact .remove p c
  | clone id deep => exact .clone id deep
  | normalize id => exact .normalize id
  | create document content => exact .create document content
  | adopt page id => exact .adopt page id
  | importNode page id deep => exact .importNode page id deep
  | trash id => exact .trash id
  | update id content => exact .update id content
  | link mirror component => exact .link mirror component
  | unlink mirror => exact .unlink mirror
  | share id _ => exact .share id

end Edit

end ContentTree
