import Mathlib.Tactic.Common

/-!
# Computations that may refuse

When several steps in a row, each of which may refuse, have a result.

## Main results

* `bind_eq_ok`: a step with another after it has a result if both have.
* `bind_congr_of_eq_ok`: two computations that agree step by step.
* `mapM_map_eq_ok`, `length_of_mapM_eq_ok`: one step for each element of a list.
-/

namespace ContentTree

variable {ε α β : Type} {x : Except ε α} {f : α → Except ε β} {b : β} {e : ε}

theorem bind_eq_ok : (x >>= f) = .ok b ↔ ∃ a, x = .ok a ∧ f a = .ok b := by
  cases x <;> simp [bind, Except.bind]

/-- Two computations agree if their first steps do, and then what comes after a result. -/
theorem bind_congr_of_eq_ok {y : Except ε α} {g : α → Except ε β} (hxy : x = y)
    (h : ∀ a, x = .ok a → f a = g a) : (x >>= f) = (y >>= g) := by
  subst hxy
  cases x with
  | error => rfl
  | ok a => exact h a rfl

theorem bind_unit_eq_ok {x : Except ε Unit} {f : Unit → Except ε β} :
    (x >>= f) = .ok b ↔ x = .ok () ∧ f () = .ok b :=
  bind_eq_ok.trans ⟨fun ⟨(), h⟩ => h, fun h => ⟨(), h⟩⟩

theorem ite_throw_bind_eq_ok {p : Prop} [Decidable p] {y : Except ε β} :
    (if p then throw e >>= f else y) = .ok b ↔ ¬ p ∧ y = .ok b := by
  by_cases hp : p <;> simp [hp, throw, throwThe, MonadExceptOf.throw, bind, Except.bind]

theorem ite_throw_eq_ok {p : Prop} [Decidable p] {u : Unit} :
    (if p then throw e else pure () : Except ε Unit) = .ok u ↔ ¬ p := by
  by_cases hp : p <;> simp [hp, throw, throwThe, MonadExceptOf.throw, pure, Except.pure]

theorem ite_pure_eq_ok {p : Prop} [Decidable p] {u : Unit} :
    (if p then pure () else throw e : Except ε Unit) = .ok u ↔ p := by
  by_cases hp : p <;> simp [hp, throw, throwThe, MonadExceptOf.throw, pure, Except.pure]

/-! ### Lists -/

/-- What is read of what is written, element by element. -/
theorem mapM_map_eq_ok {g : β → α} {bs : List β} (h : ∀ b ∈ bs, f (g b) = .ok b) :
    (bs.map g).mapM f = .ok bs := by
  induction bs with
  | nil => rfl
  | cons b bs ih =>
    rw [List.forall_mem_cons] at h
    rw [List.map_cons, List.mapM_cons, h.1, ih h.2]
    rfl

theorem length_of_mapM_eq_ok {as : List α} {bs : List β} (h : as.mapM f = .ok bs) :
    bs.length = as.length := by
  induction as generalizing bs with
  | nil => exact congrArg List.length (Except.ok.inj h).symm
  | cons a as ih =>
    rw [List.mapM_cons] at h
    obtain ⟨b, -, h⟩ := bind_eq_ok.mp h
    obtain ⟨bs', hbs', h⟩ := bind_eq_ok.mp h
    rw [← Except.ok.inj h, List.length_cons, List.length_cons, ih hbs']

end ContentTree
