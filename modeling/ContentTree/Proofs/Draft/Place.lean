import ContentTree.Proofs.Draft.Attach
import ContentTree.Proofs.Draft.Detach

/-!
# Moving a node

A node moves by being taken out, put in, and brought into the document of its new parent. Contents
and components stay with the nodes throughout, and the tree stays sound as long as the new parent is
not at or below the node.

## Main definitions

* `Draft.Relocated`: a write that changes places and documents only.

## Main results

* `Draft.relocated_place`, `Draft.relocated_discard`: moves change nothing else.
* `Sound.place`, `Sound.discard`: moves keep a tree sound.
-/

namespace ContentTree

open Relation

namespace Draft

open ContentTree.Tree (Rewritten)

variable {d d' d'' : Draft} {c p x y id : NodeId} {i : Nat} {n m : Node}
  {reference document : Option NodeId}

/-- A write that keeps the content, the identifier and the component of every node. -/
def Relocated (t t' : Tree) : Prop :=
  ∃ g, Rewritten g t t' ∧
    ∀ n, (g n).toContent = n.toContent ∧ (g n).id = n.id ∧ (g n).component = n.component

namespace Relocated

variable {t t' t'' : Tree}

theorem refl (t : Tree) : Relocated t t :=
  ⟨_, .refl t, fun _ => ⟨rfl, rfl, rfl⟩⟩

theorem trans (h : Relocated t t') (h' : Relocated t' t'') : Relocated t t'' := by
  obtain ⟨g, hg, hkeep⟩ := h
  obtain ⟨g', hg', hkeep'⟩ := h'
  refine ⟨_, hg.trans hg', fun n => ?_⟩
  obtain ⟨h₁, h₂, h₃⟩ := hkeep n
  obtain ⟨h₁', h₂', h₃'⟩ := hkeep' (g n)
  exact ⟨h₁'.trans h₁, h₂'.trans h₂, h₃'.trans h₃⟩

theorem rest (h : Relocated t t') : t'.rest = t.rest :=
  let ⟨_, hg, _⟩ := h
  hg.rest

theorem sharing (h : Relocated t t') : t'.sharing = t.sharing :=
  congrArg Prod.fst h.rest

theorem exists_node (h : Relocated t t') (hn : t.node? id = some n) :
    ∃ m, t'.node? id = some m ∧ m.toContent = n.toContent ∧ m.component = n.component := by
  obtain ⟨g, hg, hkeep⟩ := h
  exact ⟨g n, hg.node?_of_some hn, (hkeep n).1, (hkeep n).2.2⟩

end Relocated

theorem relocated_detach (h : d.tree.WellFormed) (c : NodeId) :
    Relocated d.tree (d.detach c).tree := by
  cases hparent : d.tree.parent? c with
  | none =>
    rw [detach_of_root hparent]
    exact .refl _
  | some p =>
    obtain ⟨n, hc, hp⟩ := Tree.Under.exists_node hparent
    exact ⟨_, rewritten_detach h hc hp, fun _ => ⟨rfl, rfl, rfl⟩⟩

theorem under_detach (h : d.tree.WellFormed) :
    (d.detach c).tree.Under x y ↔ x ≠ c ∧ d.tree.Under x y := by
  cases hparent : d.tree.parent? c with
  | none =>
    rw [detach_of_root hparent, iff_and_self]
    rintro hxy rfl
    exact Option.some_ne_none _ (hxy.symm.trans hparent)
  | some p =>
    obtain ⟨n, hc, hp⟩ := Tree.Under.exists_node hparent
    exact under_detached (rewritten_detach h hc hp) h.keyed

theorem parent?_detach (h : d.tree.WellFormed) : (d.detach c).tree.parent? c = none := by
  by_contra hne
  obtain ⟨p, hp⟩ := Option.ne_none_iff_exists'.mp hne
  exact ((under_detach h).mp hp).1 rfl

theorem within_of_within_detach (h : d.tree.WellFormed)
    (hw : (d.detach c).tree.Within x y) : d.tree.Within x y :=
  ReflTransGen.mono (fun _ _ hxy => ((under_detach h).mp hxy).2) _ _ hw

theorem document?_detach (h : d.tree.WellFormed) (c x : NodeId) :
    (d.detach c).tree.document? x = d.tree.document? x := by
  cases hparent : d.tree.parent? c with
  | none => rw [detach_of_root hparent]
  | some p =>
    obtain ⟨n, hc, hp⟩ := Tree.Under.exists_node hparent
    exact (rewritten_detach h hc hp).document? (fun _ => rfl) x

theorem relocated_setDocument (h : d.tree.WellFormed) (root : NodeId) (document : Option NodeId) :
    Relocated d.tree (d.setDocument root document).tree := by
  refine ⟨_, rewritten_setDocument h.keyed root document, fun n => ?_⟩
  unfold documented
  split <;> exact ⟨rfl, rfl, rfl⟩

theorem relocated_discard (h : d.tree.WellFormed) (c : NodeId) :
    Relocated d.tree (d.discard c).tree :=
  (relocated_detach h c).trans (relocated_setDocument (h.detach c) c none)

/-- The index at which a node is put before `reference`, or at the end. -/
def indexFor (t : Tree) (parent : NodeId) (reference : Option NodeId) : Nat :=
  match reference.bind t.node? with
  | some n => n.position
  | none => (t.children parent).length

/-- A node among the children of `parent` that has not yet changed its document. -/
def settle (d : Draft) (parent child : NodeId) (reference : Option NodeId) : Draft :=
  (d.detach child).attach parent child (indexFor (d.detach child).tree parent reference)

theorem place_eq (d : Draft) (parent child : NodeId) (reference : Option NodeId) :
    d.place parent child reference =
      if (d.settle parent child reference).tree.document? child =
          (d.settle parent child reference).tree.document? parent
      then d.settle parent child reference
      else (d.settle parent child reference).setDocument child
        ((d.settle parent child reference).tree.document? parent) := rfl

/-- What a node to be moved and its new parent must satisfy: both exist, the node is no page, and
the parent is not at or below it. -/
structure Movable (t : Tree) (parent child : NodeId) : Prop where
  exists_parent : ∃ m, t.node? parent = some m
  exists_child : ∃ n, t.node? child = some n ∧ n.kind.isPage = false
  not_within : ¬ t.Within parent child

namespace Movable

variable (hm : Movable d.tree p c)
include hm

theorem detach (h : d.tree.WellFormed) : ∃ m n, (d.detach c).tree.node? p = some m ∧
    (d.detach c).tree.node? c = some n ∧ n.parent = none ∧ n.kind.isPage = false ∧
    ¬ (d.detach c).tree.Within p c := by
  obtain ⟨⟨m, hp⟩, ⟨n, hc, hpage⟩, hpc⟩ := hm
  obtain ⟨m', hp', -⟩ := (relocated_detach h c).exists_node hp
  obtain ⟨n', hc', hcontent, -⟩ := (relocated_detach h c).exists_node hc
  refine ⟨m', n', hp', hc', ?_, by rw [hcontent, hpage], fun hw =>
    hpc (within_of_within_detach h hw)⟩
  rw [← Tree.parent?_eq hc', parent?_detach h]

/-- The tree just before the moved node changes its document. -/
theorem rewritten_settle (h : d.tree.WellFormed) (reference : Option NodeId) :
    ∃ k, Rewritten (attached p c k) (d.detach c).tree (d.settle p c reference).tree := by
  obtain ⟨m, n, hp, hc, hroot, -, hpc⟩ := hm.detach h
  exact ⟨_, rewritten_attach (h.detach c) hc hroot (fun he => hpc (he ▸ .refl)) hp⟩

theorem relocated_settle (h : d.tree.WellFormed) (reference : Option NodeId) :
    Relocated d.tree (d.settle p c reference).tree := by
  obtain ⟨k, hg⟩ := hm.rewritten_settle h reference
  exact (relocated_detach h c).trans ⟨_, hg, fun _ => ⟨rfl, rfl, rfl⟩⟩

theorem wellFormed_settle (h : d.tree.WellFormed) (reference : Option NodeId) :
    (d.settle p c reference).tree.WellFormed := by
  obtain ⟨m, n, hp, hc, hroot, hpage, hpc⟩ := hm.detach h
  exact (h.detach c).attach hp hc hroot hpage hpc

theorem sound_settle (h : d.tree.Sound) (reference : Option NodeId) :
    (d.settle p c reference).tree.Sound := by
  obtain ⟨m, n, hp, hc, hroot, hpage, hpc⟩ := hm.detach h.toWellFormed
  exact (h.detach c).attach hp hc hroot hpage hpc

theorem under_settle (h : d.tree.WellFormed) (reference : Option NodeId) :
    (d.settle p c reference).tree.Under x y ↔ if x = c then y = p else d.tree.Under x y := by
  obtain ⟨m, n, hp, hc, hroot, -, hpc⟩ := hm.detach h
  obtain ⟨k, hg⟩ := hm.rewritten_settle h reference
  rw [under_attached hg (h.detach c).keyed hc, under_detach h]
  split <;> simp_all

theorem document?_settle (h : d.tree.WellFormed) (reference : Option NodeId) (x : NodeId) :
    (d.settle p c reference).tree.document? x = d.tree.document? x := by
  obtain ⟨k, hg⟩ := hm.rewritten_settle h reference
  rw [hg.document? (fun _ => rfl), document?_detach h]

theorem relocated_place (h : d.tree.WellFormed) (reference : Option NodeId) :
    Relocated d.tree (d.place p c reference).tree := by
  rw [place_eq]
  split
  · exact hm.relocated_settle h reference
  · exact (hm.relocated_settle h reference).trans
      (relocated_setDocument (hm.wellFormed_settle h reference) c _)

end Movable

/-! ### Where nodes stand after a move -/

theorem children_detach (h : d.tree.WellFormed) (c z : NodeId) :
    (d.detach c).tree.children z = (d.tree.children z).erase c := by
  cases hparent : d.tree.parent? c with
  | none =>
    rw [detach_of_root hparent, List.erase_of_not_mem]
    rw [h.mem_children_iff, Tree.Under, hparent]
    exact (Option.some_ne_none z).symm
  | some p =>
    obtain ⟨n, hc, hp⟩ := Tree.Under.exists_node hparent
    rw [children_detached (rewritten_detach h hc hp) h.keyed]
    split
    · next hz => rw [hz, ← h.idxOf_child hc hp, List.eraseIdx_idxOf_eq_erase]
    · next hz =>
      rw [List.erase_of_not_mem]
      rw [h.mem_children_iff]
      exact fun hcz => hz (hcz.eq hparent)

theorem children_setDocument (h : d.tree.WellFormed) (root : NodeId) (document : Option NodeId)
    (z : NodeId) : (d.setDocument root document).tree.children z = d.tree.children z :=
  (rewritten_setDocument h.keyed root document).children_eq (still_documented _ _ _) z

theorem under_setDocument (h : d.tree.WellFormed) (root : NodeId) (document : Option NodeId) :
    (d.setDocument root document).tree.Under x y ↔ d.tree.Under x y := by
  rw [(rewritten_setDocument h.keyed root document).under_eq (still_documented _ _ _)]

/-- A node belongs to its old document or to the new one when a branch changes its document. -/
theorem document?_setDocument (h : d.tree.WellFormed) (root : NodeId) (document : Option NodeId)
    (x : NodeId) : (d.setDocument root document).tree.document? x = d.tree.document? x ∨
      (d.setDocument root document).tree.document? x = document := by
  have hg := rewritten_setDocument h.keyed root document
  rw [Tree.document?, Tree.document?, hg.node?]
  cases d.tree.node? x with
  | none => exact .inl rfl
  | some n =>
    by_cases hn : n.id ∈ d.tree.branchIds root ∧ n.kind.isPage = false
    · exact .inr (by simp [documented, hn, Node.owningPage])
    · exact .inl (by simp [documented, hn])

theorem children_discard (h : d.tree.WellFormed) (c z : NodeId) :
    (d.discard c).tree.children z = (d.tree.children z).erase c := by
  rw [discard, children_setDocument (h.detach c), children_detach h]

theorem document?_discard (h : d.tree.WellFormed) (c x : NodeId) :
    (d.discard c).tree.document? x = d.tree.document? x ∨
      (d.discard c).tree.document? x = none := by
  rw [discard, ← document?_detach h c x]
  exact document?_setDocument (h.detach c) c none x

namespace Movable

variable (hm : Movable d.tree p c) (h : d.tree.WellFormed) (reference : Option NodeId)
include hm h

theorem under_place :
    (d.place p c reference).tree.Under x y ↔ if x = c then y = p else d.tree.Under x y := by
  rw [place_eq]
  split
  · exact hm.under_settle h reference
  · rw [under_setDocument (hm.wellFormed_settle h reference), hm.under_settle h reference]

theorem document?_place (x : NodeId) :
    (d.place p c reference).tree.document? x = d.tree.document? x ∨
      (d.place p c reference).tree.document? x = d.tree.document? p := by
  rw [place_eq]
  split
  · exact .inl (hm.document?_settle h reference x)
  · rw [← hm.document?_settle h reference x, ← hm.document?_settle h reference p]
    exact document?_setDocument (hm.wellFormed_settle h reference) c _ x

theorem children_settle (z : NodeId) :
    (d.settle p c reference).tree.children z =
      if z = p then ((d.tree.children p).erase c).insertIdx
        (min (indexFor (d.detach c).tree p reference) ((d.tree.children p).erase c).length) c
      else (d.tree.children z).erase c := by
  obtain ⟨m, n, hp, hc, hroot, -, hpc⟩ := hm.detach h
  have hg := rewritten_attach (i := indexFor (d.detach c).tree p reference) (h.detach c) hc hroot
    (fun he => hpc (he ▸ .refl)) hp
  rw [settle, children_attached hg (h.detach c).keyed hp, children_detach h, children_detach h]

theorem children_place (z : NodeId) :
    (d.place p c reference).tree.children z =
      if z = p then ((d.tree.children p).erase c).insertIdx
        (min (indexFor (d.detach c).tree p reference) ((d.tree.children p).erase c).length) c
      else (d.tree.children z).erase c := by
  rw [place_eq]
  split
  · exact hm.children_settle h reference z
  · rw [children_setDocument (hm.wellFormed_settle h reference), hm.children_settle h reference z]

/-- At the end of a list. -/
theorem children_place_end :
    (d.place p c none).tree.children p = (d.tree.children p).erase c ++ [c] := by
  rw [hm.children_place h, if_pos rfl, indexFor, children_detach h]
  simp

/-- Before a sibling. -/
theorem children_place_before {xs ys : List NodeId} {f : NodeId}
    (hf : (d.tree.children p).erase c = xs ++ f :: ys) :
    (d.place p c (some f)).tree.children p = xs ++ c :: f :: ys := by
  have hlist := children_detach h c p
  rw [hf] at hlist
  have hget : ((d.detach c).tree.children p)[xs.length]? = some f := by
    rw [hlist, List.getElem?_append_right (Nat.le_refl _), Nat.sub_self]
    rfl
  obtain ⟨n, hn, -, hpos⟩ := (h.detach c).child_iff.mp hget
  have hindex : indexFor (d.detach c).tree p (some f) = xs.length := by
    rw [indexFor, Option.bind_some, hn]
    exact hpos
  have hinsert : ∀ zs : List NodeId,
      (zs ++ f :: ys).insertIdx zs.length c = zs ++ c :: f :: ys := by
    intro zs
    induction zs with
    | nil => rfl
    | cons z zs ih => simp [ih]
  rw [hm.children_place h, if_pos rfl, hindex, hf, Nat.min_eq_left (by simp), hinsert]

end Movable

end Draft

namespace Tree

variable {d : Draft} {c p : NodeId}

theorem Sound.place (h : d.tree.Sound) (hm : Draft.Movable d.tree p c)
    (reference : Option NodeId) : (d.place p c reference).tree.Sound := by
  rw [Draft.place_eq]
  split
  · exact hm.sound_settle h reference
  · exact (hm.sound_settle h reference).setDocument c _

theorem Sound.discard (h : d.tree.Sound) (c : NodeId) : (d.discard c).tree.Sound :=
  (h.detach c).setDocument c none

end Tree

end ContentTree
