import ContentTree.Text.Blank
import ContentTree.Text.Search
import Mathlib.Data.List.Infix

/-!
# Finding, cutting and splitting

What a search through a text finds, in terms of the parts of the text. A separator whose first
character does not come up in it again cannot overlap with itself, so that the parts between its
occurrences can be found in one half of a text without the other.

## Main definitions

* `Trimmed`: texts without white space around them.

## Main results

* `after?_eq_some_iff`, `occurs_iff_infix`: what searches find.
* `infix_append_iff`: where a piece can occur in two texts put together.
* `pieces_append`: a text with a separator in the middle falls into the parts of its halves.
* `length_pieces_eq_one_iff`: a text is its own only part if the separator does not occur in it.
* `Trimmed.trimChars_append`: what trimming leaves.
-/

namespace ContentTree.Text

variable {lead piece text rest a b cs : List Char} {m c : Char}

/-! ### Deciding

Whether the characters of a text have a property is found by going through the text, and not through
all characters there are. -/

instance decidableForallMem (p : Char → Prop) [DecidablePred p] (cs : List Char) :
    Decidable (∀ c ∈ cs, p c) :=
  List.decidableBAll p cs

instance decidableForallMemOption (p : Char → Prop) [DecidablePred p] (c : Option Char) :
    Decidable (∀ d ∈ c, p d) :=
  c.decidableForallMem

theorem notMem_of_forall {p : Char → Bool} (hp : ∀ d ∈ cs, p d = false) (h : p c = true) :
    c ∉ cs := fun hc =>
  Bool.false_ne_true ((hp c hc).symm.trans h)

/-! ### Finding -/

theorem after?_append (lead rest : List Char) : after? lead (lead ++ rest) = some rest := by
  induction lead with
  | nil => rfl
  | cons c lead ih => rw [List.cons_append, after?, if_pos rfl, ih]

theorem after?_eq_some_iff : after? lead text = some rest ↔ text = lead ++ rest := by
  refine ⟨fun h => ?_, fun h => h ▸ after?_append lead rest⟩
  induction lead generalizing text with
  | nil => exact Option.some.inj h
  | cons c lead ih =>
    cases text with
    | nil => exact nomatch h
    | cons d text =>
      rw [after?] at h
      split at h
      · next heq => rw [heq, ih h, List.cons_append]
      · exact nomatch h

theorem isSome_after?_iff : (after? lead text).isSome ↔ lead <+: text := by
  rw [Option.isSome_iff_exists]
  exact exists_congr fun rest => after?_eq_some_iff.trans eq_comm

theorem after?_eq_none_iff : after? lead text = none ↔ ¬ lead <+: text := by
  rw [← isSome_after?_iff, Option.not_isSome_iff_eq_none]

theorem occurs_iff_infix : occurs piece text = true ↔ piece <:+: text := by
  rw [occurs]
  induction text with
  | nil =>
    rw [cut?, Option.isSome_map, isSome_after?_iff, List.prefix_nil, List.infix_nil]
  | cons c text ih =>
    rw [cut?, List.infix_cons_iff, ← isSome_after?_iff]
    cases after? piece (c :: text) with
    | none => simp [ih]
    | some rest => simp

/-! ### Cutting at a character -/

theorem cut?_append (h : m ∉ a) (b : List Char) : cut? [m] (a ++ m :: b) = some (a, b) := by
  induction a with
  | nil => rw [List.nil_append, cut?, after?, if_pos rfl, after?]
  | cons c a ih =>
    rw [List.mem_cons, not_or] at h
    rw [List.cons_append, cut?, after?, if_neg h.1, ih h.2]
    rfl

theorem cutLast?_eq_none (h : m ∉ a) : cutLast? m a = none := by
  induction a with
  | nil => rfl
  | cons c a ih =>
    rw [List.mem_cons, not_or] at h
    rw [cutLast?, ih h.2]
    exact if_neg fun heq => h.1 heq.symm

theorem cutLast?_append (a : List Char) (h : m ∉ b) : cutLast? m (a ++ m :: b) = some (a, b) := by
  induction a with
  | nil =>
    rw [List.nil_append, cutLast?, cutLast?_eq_none h]
    exact if_pos rfl
  | cons c a ih => rw [List.cons_append, cutLast?, ih]

theorem beforeLast?_append (m : Char) (a : List Char) : beforeLast? m (a ++ [m]) = some a := by
  rw [beforeLast?, List.reverse_append]
  simp

theorem before?_append (a tail : List Char) : before? tail (a ++ tail) = some a := by
  rw [before?, List.reverse_append, after?_append, Option.map_some, List.reverse_reverse]

/-! ### Pieces in two texts put together -/

section Infix

variable {tail : List Char}

/-- A beginning of two texts put together ends in the first if it has not the character at the
border. -/
theorem prefix_of_prefix_append (h : ∀ c ∈ b.head?, c ∉ lead) (hlead : lead <+: a ++ b) :
    lead <+: a := by
  rcases List.prefix_or_prefix_of_prefix hlead (List.prefix_append a b) with ha | ⟨r, rfl⟩
  · exact ha
  · cases r with
    | nil => simp
    | cons d r =>
      obtain ⟨b', rfl⟩ := (List.prefix_append_right_inj a).mp hlead
      exact absurd (by simp) (h d (by simp))

/-- A piece does not occur across the border of two texts if it cannot go on with the character at
the border. -/
theorem infix_append_iff (h : ∀ c ∈ b.head?, c ∉ tail) :
    m :: tail <:+: a ++ b ↔ m :: tail <:+: a ∨ m :: tail <:+: b := by
  constructor
  · induction a with
    | nil => exact .inr
    | cons c a ih =>
      rw [List.cons_append, List.infix_cons_iff, List.infix_cons_iff]
      rintro (hpre | hin)
      · obtain ⟨rfl, htail⟩ := List.cons_prefix_cons.mp hpre
        exact .inl (.inl (List.cons_prefix_cons.mpr ⟨rfl, prefix_of_prefix_append h htail⟩))
      · exact (ih hin).imp_left .inr
  · rintro (h | h)
    · exact h.trans (List.prefix_append a b).isInfix
    · exact h.trans (List.suffix_append a b).isInfix

/-- A piece does not occur in a text without its first character. -/
theorem not_infix_of_notMem (h : m ∉ a) : ¬ m :: tail <:+: a :=
  fun hin => h (hin.subset List.mem_cons_self)

theorem infix_append_of_notMem (h : m ∉ a) :
    m :: tail <:+: a ++ b ↔ m :: tail <:+: b := by
  induction a with
  | nil => rfl
  | cons c a ih =>
    rw [List.mem_cons, not_or] at h
    rw [List.cons_append, List.infix_cons_iff, ih h.2, or_iff_right]
    exact fun hpre => h.1 (List.cons_prefix_cons.mp hpre).1

end Infix

/-! ### Parts between separators -/

theorem piecesFrom_append_skip (piece part a b : List Char) :
    piecesFrom piece a.length part (a ++ b) = piecesFrom piece 0 part b := by
  induction a with
  | nil => rfl
  | cons c a ih => rw [List.length_cons, List.cons_append, piecesFrom, ih]

theorem piecesFrom_ne_nil (piece : List Char) (skip : Nat) (part text : List Char) :
    piecesFrom piece skip part text ≠ [] := by
  induction text generalizing skip part with
  | nil => simp [piecesFrom]
  | cons c text ih =>
    cases skip with
    | succ skip => exact ih skip part
    | zero =>
      rw [piecesFrom]
      split
      · simp
      · exact ih 0 (c :: part)

theorem pieces_ne_nil (piece text : List Char) : pieces piece text ≠ [] :=
  piecesFrom_ne_nil piece 0 [] text

section Separator

variable {tail : List Char} (hm : m ∉ tail)
include hm

theorem piecesFrom_append (skip : Nat) (part x y : List Char) (hskip : skip ≤ x.length) :
    piecesFrom (m :: tail) skip part (x ++ (m :: tail ++ y)) =
      piecesFrom (m :: tail) skip part x ++ pieces (m :: tail) y := by
  induction x generalizing skip part with
  | nil =>
    obtain rfl : skip = 0 := by simpa using hskip
    have hafter : after? (m :: tail) (m :: (tail ++ y)) = some y := after?_append (m :: tail) y
    rw [List.nil_append, List.cons_append, piecesFrom.eq_3, hafter]
    simp only [List.length_cons, Nat.add_sub_cancel]
    rw [piecesFrom_append_skip]
    rfl
  | cons c x ih =>
    cases skip with
    | succ skip =>
      rw [List.cons_append, piecesFrom, piecesFrom]
      exact ih skip part (by simpa using hskip)
    | zero =>
      -- The separator that is looked for stands in the first text, or it does not stand here.
      rw [List.cons_append, piecesFrom, piecesFrom]
      cases hafter : after? (m :: tail) (c :: x) with
      | some r =>
        have heq : c :: x = m :: tail ++ r := after?_eq_some_iff.mp hafter
        have hlength : tail.length ≤ x.length := by
          have := congrArg List.length heq
          simp at this
          omega
        have hlonger : after? (m :: tail) (c :: (x ++ (m :: tail ++ y))) =
            some (r ++ (m :: tail ++ y)) := by
          rw [after?_eq_some_iff, ← List.cons_append, heq, List.append_assoc]
        rw [hlonger]
        simp only [List.length_cons, Nat.add_sub_cancel]
        rw [ih tail.length [] hlength, List.cons_append]
      | none =>
        have hlonger : after? (m :: tail) (c :: (x ++ (m :: tail ++ y))) = none := by
          rw [after?_eq_none_iff] at hafter ⊢
          intro h
          obtain ⟨rfl, htail⟩ := List.cons_prefix_cons.mp h
          have hx : tail <+: x := prefix_of_prefix_append (by simpa) htail
          exact hafter (List.cons_prefix_cons.mpr ⟨rfl, hx⟩)
        rw [hlonger]
        exact ih 0 (c :: part) (Nat.zero_le _)

/-- A text with a separator in the middle falls into the parts of its halves. -/
theorem pieces_append (x y : List Char) :
    pieces (m :: tail) (x ++ (m :: tail ++ y)) =
      pieces (m :: tail) x ++ pieces (m :: tail) y :=
  piecesFrom_append hm 0 [] x y (Nat.zero_le _)

theorem pieces_flatMap (x : List Char) (ys : List (List Char)) :
    pieces (m :: tail) (x ++ ys.flatMap (m :: tail ++ ·)) =
      pieces (m :: tail) x ++ ys.flatMap (pieces (m :: tail)) := by
  induction ys generalizing x with
  | nil => simp
  | cons y ys ih =>
    rw [List.flatMap_cons, List.flatMap_cons, List.append_assoc, pieces_append hm, ih]

omit hm

theorem piecesFrom_of_absent (part : List Char) (h : ¬ piece <:+: text) :
    piecesFrom piece 0 part text = [part.reverse ++ text] := by
  induction text generalizing part with
  | nil => simp [piecesFrom]
  | cons c text ih =>
    rw [List.infix_cons_iff, not_or] at h
    rw [piecesFrom, after?_eq_none_iff.mpr h.1]
    simp [ih (c :: part) h.2]

/-- A text without the separator is its own only part. -/
theorem pieces_of_absent (h : ¬ piece <:+: text) : pieces piece text = [text] := by
  rw [pieces, piecesFrom_of_absent [] h, List.reverse_nil, List.nil_append]

include hm

theorem length_pieces_eq_one_iff :
    (pieces (m :: tail) text).length = 1 ↔ ¬ m :: tail <:+: text := by
  constructor
  · rintro h ⟨x, y, rfl⟩
    have hx := List.length_pos_iff.mpr (pieces_ne_nil (m :: tail) x)
    have hy := List.length_pos_iff.mpr (pieces_ne_nil (m :: tail) y)
    rw [List.append_assoc, pieces_append hm, List.length_append] at h
    omega
  · intro h
    rw [pieces_of_absent h]
    rfl

end Separator

/-! ### Exchanging -/

theorem replaceFrom_append_skip (piece other a b : List Char) :
    replaceFrom piece other a.length (a ++ b) = replaceFrom piece other 0 b := by
  induction a with
  | nil => rfl
  | cons c a ih => rw [List.length_cons, List.cons_append, replaceFrom, ih]

theorem replace_cons_of_not_prefix (other : List Char) (h : ¬ piece <+: c :: text) :
    replace piece other (c :: text) = c :: replace piece other text := by
  rw [replace, replaceFrom, after?_eq_none_iff.mpr h]
  rfl

theorem replace_append_self (hne : piece ≠ []) (other text : List Char) :
    replace piece other (piece ++ text) = other ++ replace piece other text := by
  cases piece with
  | nil => exact absurd rfl hne
  | cons c piece =>
    have hafter : after? (c :: piece) (c :: (piece ++ text)) = some text := after?_append _ text
    rw [List.cons_append, replace, replaceFrom, hafter]
    simp only [List.length_cons, Nat.add_sub_cancel]
    rw [replaceFrom_append_skip]
    rfl

/-- Where a text is put together of parts, its parts are exchanged one by one. -/
theorem replace_flatMap {other : List Char} {f g : Char → List Char}
    (h : ∀ c rest, replace piece other (f c ++ rest) = g c ++ replace piece other rest)
    (cs : List Char) : replace piece other (cs.flatMap f) = cs.flatMap g := by
  induction cs with
  | nil => rfl
  | cons c cs ih => rw [List.flatMap_cons, List.flatMap_cons, h, ih]

/-! ### Trimming -/

/-- There is something, and no white space around it. -/
structure Trimmed (cs : List Char) : Prop where
  ne_nil : cs ≠ []
  head : ∀ c ∈ cs.head?, isBlankChar c = false
  last : ∀ c ∈ cs.getLast?, isBlankChar c = false

theorem dropWhile_eq_self {p : Char → Bool} (h : ∀ c ∈ cs.head?, p c = false) :
    cs.dropWhile p = cs := by
  cases cs with
  | nil => rfl
  | cons c cs => rw [List.dropWhile_cons_of_neg (by simpa using h c rfl)]

/-- White space at both ends is dropped, and nothing else. -/
theorem Trimmed.trimChars_append (h : Trimmed cs) (ha : ∀ c ∈ a, isBlankChar c = true)
    (hb : ∀ c ∈ b, isBlankChar c = true) : trimChars (a ++ (cs ++ b)) = cs := by
  have hfirst : ∀ c ∈ (cs ++ b).head?, isBlankChar c = false := by
    rw [List.head?_append_of_ne_nil cs h.ne_nil]
    exact h.head
  rw [trimChars, List.dropWhile_append_of_pos ha, dropWhile_eq_self hfirst, List.reverse_append,
    List.dropWhile_append_of_pos fun c hc => hb c (List.mem_reverse.mp hc),
    dropWhile_eq_self (by simpa using h.last), List.reverse_reverse]

theorem Trimmed.trimChars_eq (h : Trimmed cs) : trimChars cs = cs := by
  have htrim := h.trimChars_append (a := []) (b := []) (by simp) (by simp)
  rwa [List.nil_append, List.append_nil] at htrim

theorem Trimmed.append (ha : Trimmed a) (hb : Trimmed b) (cs : List Char) :
    Trimmed (a ++ (cs ++ b)) where
  ne_nil := by simp [ha.ne_nil]
  head := by
    rw [List.head?_append_of_ne_nil a ha.ne_nil]
    exact ha.head
  last := by
    rw [List.getLast?_append_of_ne_nil _ (by simp [hb.ne_nil]),
      List.getLast?_append_of_ne_nil _ hb.ne_nil]
    exact hb.last

end ContentTree.Text
