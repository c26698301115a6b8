import ContentTree.Proofs.Draft.Still

/-!
# Putting a node in

A node that is put among the children of another pushes its later siblings up by one. The tree stays
well-formed as long as the node was a root and the new parent was not at or below it.

## Main definitions

* `Draft.attached`: what becomes of each node.

## Main results

* `Draft.rewritten_attach`, `Draft.under_attached`, `Draft.children_attached`: the tree afterwards.
* `WellFormed.attach`, `Sound.attach`: a tree stays well-formed, and sound.
-/

namespace ContentTree

open Relation

namespace Draft

open ContentTree.Tree (Rewritten)

variable {d : Draft} {c p id : NodeId} {i : Nat} {n m : Node}

/-- What becomes of a node when `c` is put among the children of `p` at an index. -/
def attached (p c : NodeId) (i : Nat) (n : Node) : Node :=
  { n with
    children := if n.id = p then n.children.insertIdx i c else n.children
    parent := if n.id = c then some p else n.parent
    position :=
      if n.id = c then i
      else if n.parent = some p ∧ i ≤ n.position then n.position + 1 else n.position }

theorem drop_insertIdx {xs : List NodeId} (hi : i ≤ xs.length) :
    (xs.insertIdx i c).drop i = c :: xs.drop i := by
  apply List.ext_getElem?
  intro j
  rw [List.getElem?_drop, List.getElem?_insertIdx]
  cases j with
  | zero => simp [hi]
  | succ j =>
    rw [if_neg (by omega), if_neg (by omega), List.getElem?_cons_succ, List.getElem?_drop]
    congr 1

theorem rewritten_attach (h : d.tree.WellFormed) (hc : d.tree.node? c = some n)
    (hroot : n.parent = none) (hpc : p ≠ c) (hp : d.tree.node? p = some m) :
    Rewritten (attached p c (min i (d.tree.children p).length)) d.tree (d.attach p c i).tree := by
  set k := min i (d.tree.children p).length with hk
  have hmem : c ∉ d.tree.children p := by
    rw [h.mem_children_iff, Tree.Under, Tree.parent?_eq hc, hroot]
    simp
  set f₁ : Node → Node := fun n => { n with children := n.children.insertIdx k c } with hf₁
  set f₂ : Node → Node := fun n => { n with parent := some p } with hf₂
  -- First the list of children changes, then the parent, and then the later siblings move up.
  have h₁ : Rewritten (at_ p f₁) d.tree (d.modify p f₁).tree :=
    rewritten_modify h.keyed fun _ => rfl
  have hk₁ := h₁.keyed h.keyed (at_id fun _ => rfl)
  have h₂ : Rewritten (at_ c f₂) _ ((d.modify p f₁).modify c f₂).tree :=
    rewritten_modify hk₁ fun _ => rfl
  have hk₂ := h₂.keyed hk₁ (at_id fun _ => rfl)
  have hchildren : ((d.modify p f₁).modify c f₂).tree.children p =
      (d.tree.children p).insertIdx k c := by
    have hm := (h₁.trans h₂).node?_of_some hp
    have hid := h.keyed hp
    rw [Tree.children_eq hm, Tree.children_eq hp]
    simp [at_, hid, hpc, hf₁]
  have hnd : ((d.tree.children p).insertIdx k c).Nodup :=
    (List.perm_insertIdx c _ (by omega)).nodup_iff.mpr
      (List.nodup_cons.mpr ⟨hmem, h.nodup_children p⟩)
  have h₃ := rewritten_renumber k hk₂ (hchildren ▸ hnd)
  rw [hchildren, drop_insertIdx (by omega)] at h₃
  refine ((h₁.trans h₂).trans h₃).congr fun x n' hn' => ?_
  obtain rfl := h.keyed hn'
  -- Only the node itself and its later siblings get another index.
  by_cases hxc : n'.id = c
  · simp [attached, numbered, at_, hxc, Ne.symm hpc, hf₂]
  · by_cases hin : n'.parent = some p ∧ k ≤ n'.position
    · have hdrop := (h.mem_drop_children_iff hn').mpr hin
      have hidx : (c :: (d.tree.children p).drop k).idxOf n'.id = n'.position - k + 1 := by
        rw [List.idxOf_cons, beq_false_of_ne (Ne.symm hxc)]
        simp [h.idxOf_drop_children hn' hin.1 hin.2]
      have hpos : k + (n'.position - k + 1) = n'.position + 1 := by omega
      by_cases hxp : n'.id = p
      · subst hxp
        simp [attached, numbered, at_, hxc, hdrop, hidx, hin, hpos, hf₁]
      · simp [attached, numbered, at_, hxc, hxp, hdrop, hidx, hin, hpos]
    · have hdrop := mt (h.mem_drop_children_iff hn').mp hin
      by_cases hxp : n'.id = p
      · subst hxp
        simp [attached, numbered, at_, hxc, hdrop, hin, hf₁]
      · simp [attached, numbered, at_, hxc, hxp, hdrop, hin]

/-- The parent of each node after a node was put in. -/
theorem under_attached {t : Tree} (hg : Rewritten (attached p c i) d.tree t)
    (hk : d.tree.Keyed) (hc : d.tree.node? c = some n) {x y : NodeId} :
    t.Under x y ↔ if x = c then y = p else d.tree.Under x y := by
  rw [Tree.Under, Tree.parent?, hg.node?]
  by_cases hx : x = c
  · subst hx
    simp [hc, attached, hk hc, eq_comm]
  · rw [if_neg hx, Tree.Under, Tree.parent?]
    cases hn : d.tree.node? x with
    | none => rfl
    | some m =>
      have hne : m.id ≠ c := by rwa [hk hn]
      simp [attached, hne]

/-- Whoever stands below another after a node was put in did so before, or stands within that node
and the other at or above its new parent. -/
theorem below_attached {t : Tree} (hg : Rewritten (attached p c i) d.tree t)
    (hk : d.tree.Keyed) (hc : d.tree.node? c = some n) {x y : NodeId} (hb : t.Below x y) :
    d.tree.Below x y ∨ d.tree.Within x c ∧ d.tree.Within p y := by
  have hstep : ∀ {x y}, t.Under x y → (x = c ∧ y = p) ∨ d.tree.Under x y := by
    intro x y hxy
    rw [under_attached hg hk hc] at hxy
    split at hxy
    · exact .inl ⟨‹_›, hxy⟩
    · exact .inr hxy
  induction hb with
  | single hxy =>
    rcases hstep hxy with ⟨rfl, rfl⟩ | hxy
    · exact .inr ⟨.refl, .refl⟩
    · exact .inl (.single hxy)
  | tail _ hyz ih =>
    rcases hstep hyz with ⟨rfl, rfl⟩ | hyz
    · rcases ih with hxc | ⟨hxc, -⟩
      · exact .inr ⟨hxc.to_reflTransGen, .refl⟩
      · exact .inr ⟨hxc, .refl⟩
    · rcases ih with hxy | ⟨hxc, hpy⟩
      · exact .inl (hxy.tail hyz)
      · exact .inr ⟨hxc, hpy.tail hyz⟩

theorem children_attached {t : Tree} (hg : Rewritten (attached p c i) d.tree t)
    (hk : d.tree.Keyed) (hp : d.tree.node? p = some m) (q : NodeId) :
    t.children q = if q = p then (d.tree.children p).insertIdx i c else d.tree.children q := by
  rw [Tree.children, hg.node?]
  by_cases hq : q = p
  · subst hq
    simp [hp, attached, hk hp, Tree.children_eq hp]
  · rw [if_neg hq, Tree.children]
    cases hn : d.tree.node? q with
    | none => rfl
    | some m =>
      have hne : m.id ≠ p := by rwa [hk hn]
      simp [attached, hne]

section Children

variable {t : Tree} {q x : NodeId} {j : Nat} {y : Node} (h : d.tree.WellFormed)
  (hg : Rewritten (attached p c i) d.tree t) (hp : d.tree.node? p = some m)
  (hc : d.tree.node? c = some n) (hroot : n.parent = none)
include h hc hroot

/-- A child that was there before is not the node that is put in, which was a root. -/
theorem ne_of_child (hx : (d.tree.children q)[j]? = some x) : x ≠ c := by
  rintro rfl
  obtain ⟨y, hy, hyp, -⟩ := h.child_iff.mp hx
  obtain rfl := Option.some.inj (hc.symm.trans hy)
  exact Option.some_ne_none _ (hyp.symm.trans hroot)

include hg hp

/-- Whoever is found at an index after a node was put in says so itself. -/
theorem exists_of_child_attached (hx : (t.children q)[j]? = some x) :
    ∃ y, t.node? x = some y ∧ y.parent = some q ∧ y.position = j := by
  have hcid := h.keyed hc
  rw [children_attached hg h.keyed hp] at hx
  split at hx
  · subst q
    rw [List.getElem?_insertIdx] at hx
    split_ifs at hx with hlt heq hle
    · -- Before the new node everybody stays in place.
      obtain ⟨y, hy, hyp, rfl⟩ := h.child_iff.mp hx
      have hne : y.id ≠ c := h.keyed hy ▸ ne_of_child h hc hroot hx
      exact ⟨_, hg.node?_of_some hy, by simp [attached, hne, hyp],
        by simp [attached, hne, hyp]; omega⟩
    · obtain rfl := Option.some.inj hx
      exact ⟨_, hg.node?_of_some hc, by simp [attached, hcid], by simp [attached, hcid, heq]⟩
    · -- After it everybody has moved up by one.
      obtain ⟨y, hy, hyp, hpos⟩ := h.child_iff.mp hx
      have hne : y.id ≠ c := h.keyed hy ▸ ne_of_child h hc hroot hx
      refine ⟨_, hg.node?_of_some hy, by simp [attached, hne, hyp], ?_⟩
      simp only [attached, hne, hyp, if_false, true_and]
      split <;> omega
  · next hq =>
    obtain ⟨y, hy, hyp, hpos⟩ := h.child_iff.mp hx
    have hne : y.id ≠ c := h.keyed hy ▸ ne_of_child h hc hroot hx
    exact ⟨_, hg.node?_of_some hy, by simp [attached, hne, hyp],
      by simp [attached, hne, hyp, hq, hpos]⟩

omit hc hroot

/-- Whoever says after a node was put in to stand at an index is found there. -/
theorem child_attached (hi : i ≤ (d.tree.children p).length) (hy : t.node? x = some y)
    (hyp : y.parent = some q) (hpos : y.position = j) : (t.children q)[j]? = some x := by
  rw [children_attached hg h.keyed hp]
  obtain ⟨z, hz, rfl⟩ := hg.exists_of_some hy
  obtain rfl := h.keyed hz
  by_cases hzc : z.id = c
  · have hqp : q = p := by simpa [attached, hzc, eq_comm] using hyp
    have hji : i = j := by simpa [attached, hzc] using hpos
    subst hqp hji
    rw [if_pos rfl, List.getElem?_insertIdx, if_neg (by omega), if_pos rfl, if_pos hi, hzc]
  · have hzq : z.parent = some q := by simpa [attached, hzc] using hyp
    by_cases hqp : q = p
    · subst hqp
      have hold := h.child_iff.mpr ⟨z, hz, hzq, rfl⟩
      simp only [attached, hzc, hzq, if_false, true_and] at hpos
      rw [if_pos rfl, List.getElem?_insertIdx]
      split at hpos
      · rw [if_neg (by omega), if_neg (by omega), ← hpos, Nat.add_sub_cancel, hold]
      · rw [if_pos (by omega), ← hpos, hold]
    · rw [if_neg hqp]
      have hold : z.position = j := by simpa [attached, hzc, hzq, hqp] using hpos
      exact h.child_iff.mpr ⟨z, hz, hzq, hold⟩

end Children

end Draft

namespace Tree

open Draft (attached)

variable {d : Draft} {c p id : NodeId} {i : Nat} {n m : Node}

theorem WellFormed.attach (h : d.tree.WellFormed) (hp : d.tree.node? p = some m)
    (hc : d.tree.node? c = some n) (hroot : n.parent = none) (hpage : n.kind.isPage = false)
    (hpc : ¬ d.tree.Within p c) : (d.attach p c i).tree.WellFormed := by
  have hne : p ≠ c := fun he => hpc (he ▸ .refl)
  have hg := Draft.rewritten_attach (i := i) h hc hroot hne hp
  refine
    { keyed := hg.keyed h.keyed fun _ => rfl
      child_iff := ⟨Draft.exists_of_child_attached h hg hp hc hroot, fun ⟨y, hy, hyp, hpos⟩ =>
        Draft.child_attached h hg hp (min_le_right _ _) hy hyp hpos⟩
      root_position := ?root_position, acyclic := ?acyclic, page_root := ?page_root }
  case root_position =>
    intro x y hy hyp
    obtain ⟨z, hz, rfl⟩ := hg.exists_of_some hy
    by_cases hzc : z.id = c
    · simp [attached, hzc] at hyp
    · have hzp : z.parent = none := by simpa [attached, hzc] using hyp
      simp [attached, hzc, hzp, h.root_position hz hzp]
  case acyclic =>
    intro x hx
    rcases Draft.below_attached hg h.keyed hc hx with hx | ⟨hxc, hpx⟩
    · exact h.acyclic x hx
    · exact hpc (ReflTransGen.trans hpx hxc)
  case page_root =>
    intro x y hy hypage
    obtain ⟨z, hz, rfl⟩ := hg.exists_of_some hy
    have hzc : z.id ≠ c := by
      intro hzc
      obtain rfl := h.keyed hz
      rw [hzc, hc] at hz
      obtain rfl := Option.some.inj hz
      exact Bool.false_ne_true (hpage.symm.trans hypage)
    simp [attached, hzc, h.page_root hz hypage]

theorem Sound.attach (h : d.tree.Sound) (hp : d.tree.node? p = some m)
    (hc : d.tree.node? c = some n) (hroot : n.parent = none) (hpage : n.kind.isPage = false)
    (hpc : ¬ d.tree.Within p c) : (d.attach p c i).tree.Sound :=
  h.of_rewritten (Draft.rewritten_attach h.toWellFormed hc hroot (fun he => hpc (he ▸ .refl)) hp)
    (h.toWellFormed.attach hp hc hroot hpage hpc) fun _ _ _ => rfl

end Tree

end ContentTree
