import ContentTree.Tree.Sharing

/-!
# Mirrors and components

The relation of mirrors and components is kept from both sides. Linking and unlinking change the two
sides together, so that they always tell the same story.

## Main definitions

* `Sharing.Consistent`: both sides agree, and no component has an entry without mirrors.

## Main results

* `Sharing.componentOf_link`, `Sharing.componentOf_unlink`: what mirrors what afterwards.
* `Consistent.link`, `Consistent.unlink`: both sides still agree.
-/

namespace ContentTree.Sharing

variable {s : Sharing} {m c x : NodeId}

/-- Both sides of the relation agree, and no component has an entry without mirrors. -/
structure Consistent (s : Sharing) : Prop where
  mem_iff : ∀ m c : NodeId, m ∈ s.mirrorSet c ↔ s.componentOf m = some c
  nonempty : ∀ c : NodeId, s.mirrors[c]? ≠ some ∅

theorem consistent_empty : Consistent {} where
  mem_iff m c := by simp [mirrorSet, componentOf]
  nonempty c := by simp

theorem mem_mirrorsOf : m ∈ s.mirrorsOf c ↔ m ∈ s.mirrorSet c :=
  Std.ExtTreeSet.mem_toList

theorem mirrorSet_eq (s : Sharing) (c : NodeId) : s.mirrorSet c = s.mirrors[c]?.getD ∅ :=
  Std.ExtTreeMap.getD_eq_getD_getElem?

/-- A component is mirrored by whoever mirrors it. -/
theorem Consistent.hasMirrors_iff (h : s.Consistent) :
    s.hasMirrors c = true ↔ ∃ m, s.componentOf m = some c := by
  simp only [← h.mem_iff]
  rw [hasMirrors, Bool.not_eq_true', ← Bool.not_eq_true, Std.ExtTreeSet.isEmpty_iff,
    Std.ExtTreeSet.eq_empty_iff_forall_not_mem]
  simp

theorem Consistent.mirrorsOf_ne_nil (h : s.Consistent) (hc : c ∈ s.mirrors) :
    s.mirrorsOf c ≠ [] := by
  obtain ⟨mirrors, hmirrors⟩ := Option.isSome_iff_exists.mp
    (Std.ExtTreeMap.mem_iff_isSome_getElem?.mp hc)
  intro hnil
  refine h.nonempty c (hmirrors.trans (congrArg some ?_))
  rw [mirrorsOf, mirrorSet_eq, hmirrors, Option.getD_some] at hnil
  rw [← Std.ExtTreeSet.isEmpty_iff, ← Std.ExtTreeSet.isEmpty_toList, hnil, List.isEmpty_nil]

/-! ### Unlinking -/

theorem componentOf_unlink (s : Sharing) (m x : NodeId) :
    (s.unlink m).componentOf x = if x = m then none else s.componentOf x := by
  unfold unlink
  split
  · next hnone => split <;> simp_all
  · simp only [componentOf, Std.ExtTreeMap.getElem?_erase, Std.compare_eq_iff_eq, eq_comm (a := m)]

/-- What becomes of the entries when a mirror leaves its component. -/
theorem getElem?_mirrors_unlink (hm : s.componentOf m = some c) (x : NodeId) :
    (s.unlink m).mirrors[x]? =
      if x = c then
        if (s.mirrorSet c).erase m = ∅ then none else some ((s.mirrorSet c).erase m)
      else s.mirrors[x]? := by
  simp only [unlink, hm, Std.ExtTreeSet.isEmpty_iff]
  by_cases hrest : (s.mirrorSet c).erase m = ∅
  · simp only [hrest, if_true, Std.ExtTreeMap.getElem?_erase, Std.compare_eq_iff_eq,
      eq_comm (a := c)]
  · simp only [hrest, if_false, Std.ExtTreeMap.getElem?_insert, Std.compare_eq_iff_eq,
      eq_comm (a := c)]

theorem Consistent.mem_mirrorSet_unlink (h : s.Consistent) :
    x ∈ (s.unlink m).mirrorSet c ↔ x ≠ m ∧ x ∈ s.mirrorSet c := by
  cases hm : s.componentOf m with
  | none =>
    have hunlink : s.unlink m = s := by simp only [unlink, hm]
    rw [hunlink, iff_and_self]
    rintro hx rfl
    exact nomatch hm.symm.trans ((h.mem_iff _ _).mp hx)
  | some c' =>
    rw [mirrorSet_eq (s.unlink m), getElem?_mirrors_unlink hm]
    by_cases hc : c = c'
    · subst hc
      have hmem : x ∈ (s.mirrorSet c).erase m ↔ x ≠ m ∧ x ∈ s.mirrorSet c := by
        rw [Std.ExtTreeSet.mem_erase, ne_eq, Std.compare_eq_iff_eq, eq_comm]
      rw [if_pos rfl, ← hmem]
      split
      · next hrest => simp [hrest]
      · rfl
    · -- Nobody but the mirrors of the component is concerned.
      rw [if_neg hc, ← mirrorSet_eq, iff_and_self]
      rintro hx rfl
      exact hc (Option.some.inj (((h.mem_iff _ _).mp hx).symm.trans hm))

theorem Consistent.unlink (h : s.Consistent) (m : NodeId) : (s.unlink m).Consistent where
  mem_iff x c := by
    rw [h.mem_mirrorSet_unlink, componentOf_unlink, h.mem_iff]
    split <;> simp_all
  nonempty c := by
    cases hm : s.componentOf m with
    | none => simpa only [Sharing.unlink, hm] using h.nonempty c
    | some c' =>
      rw [getElem?_mirrors_unlink hm]
      split
      · split
        · exact (Option.some_ne_none _).symm
        · next hrest => exact fun heq => hrest (Option.some.inj heq)
      · exact h.nonempty c

/-! ### Linking -/

theorem componentOf_link (s : Sharing) (m c x : NodeId) :
    (s.link m c).componentOf x = if x = m then some c else s.componentOf x := by
  have hunlink := componentOf_unlink s m x
  simp only [componentOf] at hunlink ⊢
  simp only [link, Std.ExtTreeMap.getElem?_insert, Std.compare_eq_iff_eq, eq_comm (a := m), hunlink]
  split <;> rfl

theorem getElem?_mirrors_link (s : Sharing) (m c x : NodeId) :
    (s.link m c).mirrors[x]? =
      if x = c then some (((s.unlink m).mirrorSet c).insert m) else (s.unlink m).mirrors[x]? := by
  simp only [link, Std.ExtTreeMap.getElem?_insert, Std.compare_eq_iff_eq, eq_comm (a := c)]

theorem Consistent.link (h : s.Consistent) (m c : NodeId) : (s.link m c).Consistent where
  mem_iff x c' := by
    have hunlink := (h.unlink m).mem_iff x c'
    rw [componentOf_unlink] at hunlink
    rw [mirrorSet_eq, getElem?_mirrors_link, componentOf_link]
    by_cases hc : c' = c
    · subst hc
      rw [if_pos rfl, Option.getD_some, Std.ExtTreeSet.mem_insert, Std.compare_eq_iff_eq, hunlink,
        eq_comm (a := m)]
      split <;> simp_all
    · rw [if_neg hc, ← mirrorSet_eq, hunlink]
      split <;> simp_all [eq_comm]
  nonempty x := by
    rw [getElem?_mirrors_link]
    split
    · simp
    · exact (h.unlink m).nonempty x

end ContentTree.Sharing
