import Mathlib.Data.List.Basic

/-!
# Pairs of keys and values

References between nodes and fields of records are kept as lists of pairs, and only where there is
something to keep. No key is lost or mistaken for another as long as none occurs twice.

## Main definitions

* `pairs`: the keys and values of a list, where both are there.

## Main results

* `map_fst_pairs_sublist`: the keys stand in their order.
* `lookup_pairs`, `lookup_pairs_of_notMem`: every key gives its value back.
-/

namespace ContentTree

variable {α κ β : Type} {key : α → Option κ} {value : α → Option β} {as : List α} {a : α} {k : κ}

/-- The keys and values of a list, where both are there. -/
def pairs (key : α → Option κ) (value : α → Option β) (as : List α) : List (κ × β) :=
  as.filterMap fun a => (key a).bind fun k => (value a).map (k, ·)

theorem pairs_cons (key : α → Option κ) (value : α → Option β) (a : α) (as : List α) :
    pairs key value (a :: as) =
      ((key a).bind fun k => (value a).map (k, ·)).toList ++ pairs key value as := by
  rw [pairs, List.filterMap_cons]
  cases (key a).bind fun k => (value a).map (k, ·) <;> rfl

/-- Every key has one value at most. -/
theorem map_fst_pairs_sublist (key : α → Option κ) (value : α → Option β) (as : List α) :
    ((pairs key value as).map Prod.fst).Sublist (as.filterMap key) := by
  induction as with
  | nil => exact .slnil
  | cons a as ih =>
    rw [pairs_cons, List.filterMap_cons]
    cases key a with
    | none => exact ih
    | some k =>
      cases value a with
      | none => exact ih.cons k
      | some b => exact ih.cons_cons k

variable [BEq κ] [LawfulBEq κ]

theorem lookup_pairs_of_notMem (hk : k ∉ as.filterMap key) : (pairs key value as).lookup k = none :=
  List.lookup_eq_none_iff.mpr fun _ hpair => bne_iff_ne.mpr fun heq =>
    hk (heq ▸ (map_fst_pairs_sublist key value as).subset (List.mem_map_of_mem hpair))

/-- Where no key occurs twice, each gives its value back. -/
theorem lookup_pairs (hnodup : (as.filterMap key).Nodup) (ha : a ∈ as) (hk : key a = some k) :
    (pairs key value as).lookup k = value a := by
  induction as with
  | nil => exact nomatch ha
  | cons c as ih =>
    rw [pairs_cons]
    rcases List.mem_cons.mp ha with rfl | ha
    · rw [List.filterMap_cons_some hk, List.nodup_cons] at hnodup
      rw [hk, Option.bind_some]
      cases value a with
      | none => exact lookup_pairs_of_notMem hnodup.1
      | some b => exact List.lookup_cons_self
    · have hmem : k ∈ as.filterMap key := List.mem_filterMap.mpr ⟨a, ha, hk⟩
      cases hc : key c with
      | none =>
        rw [List.filterMap_cons_none hc] at hnodup
        exact ih hnodup ha
      | some x =>
        rw [List.filterMap_cons_some hc, List.nodup_cons] at hnodup
        have hne : (k == x) = false := beq_false_of_ne fun heq => hnodup.1 (heq ▸ hmem)
        rw [Option.bind_some]
        cases value c with
        | none => exact ih hnodup.2 ha
        | some b => simpa [List.lookup_cons, hne] using ih hnodup.2 ha

end ContentTree
