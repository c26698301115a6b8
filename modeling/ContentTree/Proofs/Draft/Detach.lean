import ContentTree.Proofs.Draft.Still

/-!
# Taking a node out

A node that is taken out of the children of its parent becomes a root, and its later siblings fall
back by one.

## Main definitions

* `Draft.detached`: what becomes of each node.

## Main results

* `Draft.rewritten_detach`, `Draft.under_detached`, `Draft.children_detached`: the tree afterwards.
* `WellFormed.detach`, `Sound.detach`: a tree stays well-formed, and sound.
-/

namespace ContentTree

open Relation

namespace Draft

open ContentTree.Tree (Rewritten)

variable {d : Draft} {c p id : NodeId} {i : Nat} {n m : Node}

/-- What becomes of a node when `c` is taken from the index `k` among the children of `p`. -/
def detached (p c : NodeId) (k : Nat) (n : Node) : Node :=
  { n with
    children := if n.id = p then n.children.eraseIdx k else n.children
    parent := if n.id = c then none else n.parent
    position :=
      if n.id = c then 0
      else if n.parent = some p ∧ k < n.position then n.position - 1 else n.position }

theorem detach_of_root (h : d.tree.parent? c = none) : d.detach c = d := by
  rw [detach, h]

theorem drop_eraseIdx (xs : List NodeId) (k : Nat) : (xs.eraseIdx k).drop k = xs.drop (k + 1) := by
  apply List.ext_getElem?
  intro j
  rw [List.getElem?_drop, List.getElem?_eraseIdx, if_neg (by omega), List.getElem?_drop]
  congr 1
  omega

theorem rewritten_detach (h : d.tree.WellFormed) (hc : d.tree.node? c = some n)
    (hp : n.parent = some p) :
    Rewritten (detached p c n.position) d.tree (d.detach c).tree := by
  have hparent : d.tree.parent? c = some p := (Tree.parent?_eq hc).trans hp
  obtain ⟨m, hm⟩ := h.exists_parent hparent
  have hpc : p ≠ c := by
    rintro rfl
    exact h.acyclic p (.single hparent)
  set k := n.position with hk
  set f₁ : Node → Node := fun n => { n with children := n.children.eraseIdx k } with hf₁
  set f₂ : Node → Node := fun n => { n with parent := none, position := 0 } with hf₂
  -- First the list of children changes, then the node, and then the later siblings fall back.
  have h₁ : Rewritten (at_ p f₁) d.tree (d.modify p f₁).tree :=
    rewritten_modify h.keyed fun _ => rfl
  have hk₁ := h₁.keyed h.keyed (at_id fun _ => rfl)
  have h₂ : Rewritten (at_ c f₂) _ ((d.modify p f₁).modify c f₂).tree :=
    rewritten_modify hk₁ fun _ => rfl
  have hk₂ := h₂.keyed hk₁ (at_id fun _ => rfl)
  have hchildren : ((d.modify p f₁).modify c f₂).tree.children p =
      (d.tree.children p).eraseIdx k := by
    have hm' := (h₁.trans h₂).node?_of_some hm
    have hid := h.keyed hm
    rw [Tree.children_eq hm', Tree.children_eq hm]
    simp [at_, hid, hpc, hf₁]
  have hnd : ((d.tree.children p).eraseIdx k).Nodup :=
    (h.nodup_children p).sublist (List.eraseIdx_sublist _ _)
  have h₃ := rewritten_renumber k hk₂ (hchildren ▸ hnd)
  rw [hchildren, drop_eraseIdx] at h₃
  have heq : d.detach c = ((d.modify p f₁).modify c f₂).renumber p k := by
    rw [detach, hparent]
    simp only [h.idxOf_child hc hp]
    rfl
  rw [heq]
  refine ((h₁.trans h₂).trans h₃).congr fun x y hy => ?_
  obtain rfl := h.keyed hy
  have hcdrop : c ∉ (d.tree.children p).drop (k + 1) := by
    rw [h.mem_drop_children_iff hc]
    omega
  -- Only the node itself and its later siblings get another index.
  by_cases hyc : y.id = c
  · simp [detached, numbered, at_, hyc, Ne.symm hpc, hcdrop, hf₂]
  · by_cases hin : y.parent = some p ∧ k < y.position
    · have hdrop := (h.mem_drop_children_iff (i := k + 1) hy).mpr hin
      have hidx := h.idxOf_drop_children (i := k + 1) hy hin.1 hin.2
      have hpos : k + (y.position - (k + 1)) = y.position - 1 := by omega
      by_cases hyp : y.id = p
      · subst hyp
        simp [detached, numbered, at_, hyc, hdrop, hidx, hin, hpos, hf₁]
      · simp [detached, numbered, at_, hyc, hyp, hdrop, hidx, hin, hpos]
    · have hdrop := mt (h.mem_drop_children_iff (i := k + 1) hy).mp hin
      by_cases hyp : y.id = p
      · subst hyp
        simp [detached, numbered, at_, hyc, hdrop, hin, hf₁]
      · simp [detached, numbered, at_, hyc, hyp, hdrop, hin]

/-- The parent of each node after a node was taken out. -/
theorem under_detached {t : Tree} {k : Nat} (hg : Rewritten (detached p c k) d.tree t)
    (hk : d.tree.Keyed) {x y : NodeId} : t.Under x y ↔ x ≠ c ∧ d.tree.Under x y := by
  rw [Tree.Under, Tree.Under, Tree.parent?, Tree.parent?, hg.node?]
  cases hn : d.tree.node? x with
  | none => simp
  | some m =>
    obtain rfl := hk hn
    by_cases hne : m.id = c <;> simp [detached, hne]

theorem below_detached {t : Tree} {k : Nat} (hg : Rewritten (detached p c k) d.tree t)
    (hk : d.tree.Keyed) {x y : NodeId} (hb : t.Below x y) : d.tree.Below x y :=
  TransGen.mono (fun _ _ hxy => ((under_detached hg hk).mp hxy).2) _ _ hb

theorem children_detached {t : Tree} {k : Nat} (hg : Rewritten (detached p c k) d.tree t)
    (hk : d.tree.Keyed) (q : NodeId) :
    t.children q = if q = p then (d.tree.children p).eraseIdx k else d.tree.children q := by
  rw [Tree.children, Tree.children, Tree.children, hg.node?]
  by_cases hq : q = p
  · subst hq
    cases hn : d.tree.node? q with
    | none => simp
    | some m => simp [detached, hk hn]
  · rw [if_neg hq]
    cases hn : d.tree.node? q with
    | none => rfl
    | some m =>
      have hne : m.id ≠ p := by rwa [hk hn]
      simp [detached, hne]

section Children

variable {t : Tree} {q x : NodeId} {j : Nat} {y : Node} (h : d.tree.WellFormed)
  (hc : d.tree.node? c = some n) (hp : n.parent = some p)
  (hg : Rewritten (detached p c n.position) d.tree t)
include h hc hp hg

/-- Whoever is found at an index after a node was taken out stood there before, or one further. -/
theorem exists_of_child_detached (hx : (t.children q)[j]? = some x) :
    ∃ y, t.node? x = some y ∧ y.parent = some q ∧ y.position = j := by
  have hne : ∀ {y}, d.tree.node? x = some y → y.parent ≠ some p ∨ y.position ≠ n.position →
      y.id ≠ c := by
    rintro y hy hplace rfl
    obtain rfl := h.keyed hy
    obtain rfl := Option.some.inj (hc.symm.trans hy)
    exact hplace.elim (fun hparent => hparent hp) fun hposition => hposition rfl
  rw [children_detached hg h.keyed] at hx
  obtain ⟨y, hy, hyp, hyc, hpos⟩ : ∃ y, d.tree.node? x = some y ∧ y.parent = some q ∧
      y.id ≠ c ∧ (if q = p ∧ n.position < y.position then y.position - 1
        else y.position) = j := by
    split at hx
    · subst q
      rw [List.getElem?_eraseIdx] at hx
      split at hx <;> obtain ⟨y, hy, hyp, hpos⟩ := h.child_iff.mp hx
      · -- Before the gap everybody stays in place.
        exact ⟨y, hy, hyp, hne hy (.inr (by omega)), by rw [if_neg (by omega), hpos]⟩
      · -- After it everybody has fallen back by one.
        exact ⟨y, hy, hyp, hne hy (.inr (by omega)), by rw [if_pos ⟨rfl, by omega⟩]; omega⟩
    · next hq =>
      obtain ⟨y, hy, hyp, hpos⟩ := h.child_iff.mp hx
      refine ⟨y, hy, hyp, hne hy (.inl ?_), by rw [if_neg (by simp [hq]), hpos]⟩
      rw [hyp]
      exact fun heq => hq (Option.some.inj heq)
  refine ⟨_, hg.node?_of_some hy, by simp [detached, hyc, hyp], ?_⟩
  simpa [detached, hyc, hyp] using hpos

/-- Whoever says after a node was taken out to stand at an index is found there. -/
theorem child_detached (hy : t.node? x = some y) (hyp : y.parent = some q)
    (hpos : y.position = j) : (t.children q)[j]? = some x := by
  rw [children_detached hg h.keyed]
  obtain ⟨z, hz, rfl⟩ := hg.exists_of_some hy
  obtain rfl := h.keyed hz
  have hzc : z.id ≠ c := by
    intro hzc
    simp [detached, hzc] at hyp
  have hzq : z.parent = some q := by simpa [detached, hzc] using hyp
  have hold := h.child_iff.mpr ⟨z, hz, hzq, rfl⟩
  by_cases hqp : q = p
  · subst hqp
    -- Two children at the same index would be the same one.
    have hne : z.position ≠ n.position := by
      intro heq
      have hcold := h.child_iff.mpr ⟨n, hc, hp, rfl⟩
      rw [heq, hcold] at hold
      exact hzc (Option.some.inj hold).symm
    simp only [detached, hzc, hzq, if_false, true_and] at hpos
    rw [if_pos rfl, List.getElem?_eraseIdx]
    split at hpos
    · rw [if_neg (by omega), ← hpos, Nat.sub_add_cancel (by omega), hold]
    · rw [if_pos (by omega), ← hpos, hold]
  · rw [if_neg hqp]
    have hpos' : z.position = j := by simpa [detached, hzc, hzq, hqp] using hpos
    exact hpos' ▸ hold

end Children

end Draft

namespace Tree

open Draft (detached)

variable {d : Draft} {c p id : NodeId} {n m : Node}

theorem WellFormed.detach (h : d.tree.WellFormed) (c : NodeId) : (d.detach c).tree.WellFormed := by
  cases hparent : d.tree.parent? c with
  | none => rwa [Draft.detach_of_root hparent]
  | some p =>
    obtain ⟨n, hc, hp⟩ := Under.exists_node hparent
    have hg := Draft.rewritten_detach h hc hp
    refine
      { keyed := hg.keyed h.keyed fun _ => rfl
        child_iff := ⟨Draft.exists_of_child_detached h hc hp hg, fun ⟨y, hy, hyp, hpos⟩ =>
          Draft.child_detached h hc hp hg hy hyp hpos⟩
        root_position := ?root_position, acyclic := ?acyclic, page_root := ?page_root }
    case root_position =>
      intro x y hy hyp
      obtain ⟨z, hz, rfl⟩ := hg.exists_of_some hy
      by_cases hzc : z.id = c
      · simp [detached, hzc]
      · have hzp : z.parent = none := by simpa [detached, hzc] using hyp
        simp [detached, hzc, hzp, h.root_position hz hzp]
    case acyclic =>
      intro x hx
      exact h.acyclic x (Draft.below_detached hg h.keyed hx)
    case page_root =>
      intro x y hy hypage
      obtain ⟨z, hz, rfl⟩ := hg.exists_of_some hy
      simp [detached, h.page_root hz hypage]

theorem Sound.detach (h : d.tree.Sound) (c : NodeId) : (d.detach c).tree.Sound := by
  cases hparent : d.tree.parent? c with
  | none => rwa [Draft.detach_of_root hparent]
  | some p =>
    obtain ⟨n, hc, hp⟩ := Under.exists_node hparent
    exact h.of_rewritten (Draft.rewritten_detach h.toWellFormed hc hp)
      (h.toWellFormed.detach c) fun _ _ _ => rfl

end Tree

end ContentTree
