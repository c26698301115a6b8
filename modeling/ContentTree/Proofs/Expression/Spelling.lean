import ContentTree.Expression.Token
import ContentTree.Proofs.Text.Search
import Mathlib.Data.List.Chain
import Mathlib.Data.List.TakeWhile

/-!
# Tokens and their spelling

How tokens are written, and how they are read off a text again. A token ends where a character comes
that it cannot go on with. Two neighbours can do without a separator between them if the second one
begins with such a character, and with one they always can: no token goes on with a separator.

## Main definitions

* `IsName`, `Numeral`, `Quote.enclosed`: names, numbers as they are written, and strings between
  quotes.
* `Token.spelling`, `Token.IsSpelled`: a token as it is written, if it can be written.
* `Token.goesOnWith`, `Token.MayTouch`: where a token ends, and next to which others it does.
* `Spaced`: tokens one after the other with any separators around them.

## Main results

* `Quote.unquote_enclosed`: a string between quotes stands for the text it was made of.
* `Numeral.ofText?_chars`: a number stands for the float nearest to it.
* `token?_append`: the first token is read up to where it cannot go on.
* `tokens_of_spaced`: tokens that may touch are read back, whatever separators are around them.
-/

namespace ContentTree

namespace Expression

variable {t : Token} {ts : List Token} {cs gap text rest : List Char} {name : String} {c : Char}

/-- The characters with a property before one without it. -/
theorem span_append {p : Char → Bool} (h : ∀ c ∈ cs, p c = true) (rest : List Char)
    (hrest : ∀ c ∈ rest.head?, p c = false) :
    (cs ++ rest).takeWhile p = cs ∧ (cs ++ rest).dropWhile p = rest := by
  have hnil : rest.takeWhile p = [] := by
    cases rest with
    | nil => rfl
    | cons c rest => rw [List.takeWhile_cons_of_neg (by simpa using hrest c rfl)]
  rw [List.takeWhile_append_of_pos h, hnil, List.append_nil, List.dropWhile_append_of_pos h,
    Text.dropWhile_eq_self hrest]
  exact ⟨rfl, rfl⟩

/-! ### Words -/

/-- A word begins with a letter or an underscore, and may have digits after that. -/
structure IsWord (word : String) : Prop where
  start : ∃ c ∈ word.toList.head?, isWordStart c = true
  isWordChar : ∀ c ∈ word.toList, isWordChar c = true

/-- A name is a word that is neither a truth value nor null. -/
structure IsName (name : String) : Prop extends IsWord name where
  notMem : name ∉ ["true", "false", "null"]

theorem IsName.wordToken_eq (h : IsName name) : wordToken name = .identifier name := by
  have hne := h.notMem
  simp only [List.mem_cons, List.not_mem_nil, or_false, not_or] at hne
  rw [wordToken, if_neg hne.1, if_neg hne.2.1, if_neg hne.2.2]

/-! ### Numbers -/

theorem toLower_of_isDigit (h : Decimal.isDigit c = true) : c.toLower = c := by
  simp only [Decimal.isDigit, Bool.and_eq_true, decide_eq_true_eq] at h
  have hupper : ¬ (c.val ≥ 'A'.val ∧ c.val ≤ 'Z'.val) := fun hletter =>
    absurd (UInt32.le_trans hletter.1 h.2) (by decide)
  exact dif_neg hupper

/-- A number as it is written: digits, with decimal places behind a point if there are any, and a
sign if it is negative. -/
structure Numeral where
  negative : Bool
  whole : List Char
  places : List Char
  whole_ne_nil : whole ≠ []
  isDigit_whole : ∀ c ∈ whole, Decimal.isDigit c = true
  isDigit_places : ∀ c ∈ places, Decimal.isDigit c = true

namespace Numeral

variable (n : Numeral)

/-- The number without its sign. -/
def magnitude : List Char :=
  n.whole ++ if n.places = [] then [] else '.' :: n.places

/-- The number as it is written. -/
def chars : List Char :=
  if n.negative then '-' :: n.magnitude else n.magnitude

/-- The float nearest to the number. -/
def value : Float :=
  let x := Decimal.nearest (Decimal.value (n.whole ++ n.places)) (0 - n.places.length)
  if n.negative then x.neg else x

theorem exists_magnitude_cons : ∃ c cs, n.magnitude = c :: cs ∧ Decimal.isDigit c = true := by
  obtain ⟨c, cs, hcs⟩ := List.exists_cons_of_ne_nil n.whole_ne_nil
  exact ⟨c, _, by rw [magnitude, hcs]; rfl, n.isDigit_whole c (by simp [hcs])⟩

theorem span_magnitude (rest : List Char) (hrest : ∀ c ∈ rest.head?, Decimal.isDigit c = false) :
    (n.magnitude ++ rest).takeWhile Decimal.isDigit = n.whole ∧
      (n.magnitude ++ rest).dropWhile Decimal.isDigit =
        if n.places = [] then rest else '.' :: (n.places ++ rest) := by
  rw [magnitude]
  split
  · rw [List.append_nil]
    exact span_append n.isDigit_whole rest hrest
  · rw [List.append_assoc]
    exact span_append n.isDigit_whole _ (by rintro _ ⟨⟩; decide)

/-- The digits of a number are read up to a character that is neither a digit nor a point. -/
theorem numberRest_append (hrest : ∀ c ∈ rest.head?, (Decimal.isDigit c || c = '.') = false) :
    numberRest (n.magnitude ++ rest) = (n.magnitude, rest) := by
  have hdigit : ∀ c ∈ rest.head?, Decimal.isDigit c = false := fun c hc =>
    (Bool.or_eq_false_iff.mp (hrest c hc)).1
  obtain ⟨htake, hdrop⟩ := n.span_magnitude rest hdigit
  rw [numberRest, htake, hdrop]
  by_cases hnone : n.places = []
  · -- A point after the digits would be looked at, but there is none.
    rw [if_pos hnone, magnitude, if_pos hnone, List.append_nil]
    cases rest with
    | nil => rfl
    | cons c rest =>
      have hpoint : c ≠ '.' := by simpa using (Bool.or_eq_false_iff.mp (hrest c rfl)).2
      simp [hpoint]
  · obtain ⟨hplaces, hafter⟩ := span_append n.isDigit_places rest hdigit
    rw [if_neg hnone, magnitude, if_neg hnone]
    simp [hplaces, hafter, hnone]

theorem magnitude?_magnitude : Decimal.magnitude? n.magnitude =
    some (Decimal.nearest (Decimal.value (n.whole ++ n.places)) (0 - n.places.length)) := by
  obtain ⟨htake, hdrop⟩ := n.span_magnitude [] nofun
  rw [List.append_nil] at htake hdrop
  -- A text that begins with a digit is none of the words for infinity and the like.
  have hword : ∀ word : String, (∀ c ∈ word.toList.head?, Decimal.isDigit c = false) →
      String.ofList (n.magnitude.map Char.toLower) ≠ word := by
    rintro _ hhead rfl
    obtain ⟨c, cs, hcs, hc⟩ := n.exists_magnitude_cons
    rw [String.toList_ofList, hcs, List.map_cons] at hhead
    have hlower := hhead _ rfl
    rw [toLower_of_isDigit hc, hc] at hlower
    exact nomatch hlower
  have hne : n.whole.isEmpty = false := by simpa using n.whole_ne_nil
  rw [Decimal.magnitude?, htake, hdrop]
  simp only [hword "inf" (by decide), hword "infinity" (by decide), hword "nan" (by decide),
    hne, decide_false, Bool.or_false, Bool.false_eq_true, if_false, Bool.false_and]
  by_cases hnone : n.places = []
  · simp [hnone, Decimal.exponent?]
  · obtain ⟨hplaces, hafter⟩ := span_append n.isDigit_places [] nofun
    rw [List.append_nil] at hplaces hafter
    simp [hnone, hplaces, hafter, Decimal.exponent?]

/-- A number stands for the float nearest to it. -/
theorem ofText?_chars : Decimal.ofText? n.chars = some n.value := by
  obtain ⟨c, cs, hcs, hc⟩ := n.exists_magnitude_cons
  rw [chars, value]
  split
  · rw [Decimal.ofText?, n.magnitude?_magnitude]
    rfl
  · -- A digit is neither of the signs.
    rw [← n.magnitude?_magnitude, hcs]
    unfold Decimal.ofText?
    split
    next heq => cases heq; exact absurd hc (by decide)
    next heq => cases heq; exact absurd hc (by decide)
    next => rfl

end Numeral

/-! ### Strings -/

/-- A quote around a string. -/
inductive Quote
  | single
  | double

namespace Quote

variable (q : Quote) (s : String)

/-- The quote as it is written. -/
def char : Quote → Char
  | single => '\''
  | double => '"'

/-- A character inside a string, behind a backslash where it would not stand for itself. -/
def escapeChar (c : Char) : List Char :=
  if c = q.char ∨ c = '\\' then ['\\', c] else [c]

/-- A text as a string between quotes. -/
def enclosed : String :=
  String.ofList (q.char :: (s.toList.flatMap q.escapeChar ++ [q.char]))

theorem ne_of_escaped (hc : c = q.char ∨ c = '\\') : c ≠ 'n' ∧ c ≠ 't' ∧ c ≠ '\n' := by
  obtain rfl | rfl := hc
  · cases q <;> decide
  · decide

theorem unescape_flatMap (cs : List Char) : unescape (cs.flatMap q.escapeChar) = cs := by
  induction cs with
  | nil => rfl
  | cons c cs ih =>
    rw [List.flatMap_cons, escapeChar]
    split
    next hc =>
      obtain ⟨hn, ht, -⟩ := q.ne_of_escaped hc
      rw [List.cons_append, List.cons_append, List.nil_append, unescape, if_pos rfl, if_neg hn,
        if_neg ht, ih]
    next hc =>
      rw [not_or] at hc
      cases hcs : cs.flatMap q.escapeChar with
      | nil => rw [hcs] at ih; simp [unescape, hc.2, ← ih]
      | cons d text =>
        rw [List.cons_append, List.nil_append, unescape, if_neg hc.2, ← hcs, ih]

/-- A string between quotes stands for the text it was made of. -/
theorem unquote_enclosed : unquote (q.enclosed s) = s := by
  rw [unquote, enclosed, String.toList_ofList, List.drop_one, List.tail_cons, List.dropLast_concat,
    unescape_flatMap, String.ofList_toList]

/-- A string ends at the first quote that stands for itself. -/
theorem stringRest?_append (cs : List Char) :
    stringRest? q.char (cs.flatMap q.escapeChar ++ q.char :: rest) =
      some (cs.flatMap q.escapeChar ++ [q.char], rest) := by
  induction cs with
  | nil => cases rest <;> simp [stringRest?]
  | cons c cs ih =>
    rw [List.flatMap_cons, List.append_assoc, escapeChar]
    split
    next hc =>
      -- The backslash takes the quote or backslash after it along.
      have hquote : '\\' ≠ q.char := by cases q <;> decide
      obtain ⟨-, -, hline⟩ := q.ne_of_escaped hc
      rw [List.cons_append, List.cons_append, List.nil_append, stringRest?, if_neg hquote,
        if_pos rfl, if_neg hline, ih]
      rfl
    next hc =>
      rw [not_or] at hc
      cases hcs : cs.flatMap q.escapeChar ++ q.char :: rest with
      | nil => simp at hcs
      | cons d text =>
        rw [List.cons_append, List.nil_append, stringRest?, if_neg hc.1, if_neg hc.2, ← hcs, ih]
        rfl

end Quote

/-! ### Tokens -/

namespace Token

/-- A token as it is written. -/
def spelling : Token → List Char
  | true => "true".toList
  | false => "false".toList
  | null => "null".toList
  | identifier name => name.toList
  | string literal => literal.toList
  | number digits => digits.toList
  | openParenthesis => ['(']
  | closeParenthesis => [')']
  | comma => [',']
  | dot => ['.']
  | not => ['!']
  | equal => ['=', '=']
  | notEqual => ['!', '=']
  | and => ['&', '&']
  | or => ['|', '|']

/-- What is inside a token can be written. -/
def IsSpelled : Token → Prop
  | identifier name => IsName name
  | string literal => ∃ q s, literal = Quote.enclosed q s
  | number digits => ∃ n : Numeral, digits = String.ofList n.chars
  | _ => True

/-- Whether a token would be read on into a character that comes after it. -/
def goesOnWith : Token → Char → Bool
  | true | false | null | identifier _ => isWordChar
  | number _ => fun c => Decimal.isDigit c || c = '.'
  | not => fun c => c = '='
  | _ => fun _ => .false

/-- The second token may come after the first one without a separator. -/
def MayTouch (t t' : Token) : Prop :=
  ∀ c ∈ t'.spelling.head?, t.goesOnWith c = .false

end Token

/-- The characters that operators begin with, and the sign of a number. -/
def operatorStarts : List Char := ['(', ')', ',', '.', '!', '=', '&', '|', '-']

/-- A token that is no operator is told by its first character. -/
theorem token?_cons (h : c ∉ operatorStarts) (text : List Char) : token? (c :: text) =
    if c ∈ ['"', '\''] then
      (stringRest? c text).map fun (inner, rest) => (.string (String.ofList (c :: inner)), rest)
    else if Decimal.isDigit c then
      some (.number (String.ofList (numberRest (c :: text)).1), (numberRest (c :: text)).2)
    else if isWordStart c then
      some (wordToken (String.ofList ((c :: text).takeWhile isWordChar)),
        (c :: text).dropWhile isWordChar)
    else none := by
  have hquote : (c ∈ ['"', '\'']) ↔ (decide (c = '"') || decide (c = '\'')) = true := by simp
  simp only [hquote]
  unfold token?
  split
  case h_11 heq => cases heq; rfl
  case h_12 heq => exact nomatch heq
  -- In all other cases the text begins with an operator.
  all_goals
    rename_i heq
    cases heq
    exact absurd (by decide) h

theorem isDigit_of_isWordStart (h : isWordStart c = true) : Decimal.isDigit c = false := by
  rw [Decimal.isDigit, Bool.and_eq_false_iff, decide_eq_false_iff_not, decide_eq_false_iff_not]
  simp only [isWordStart, Bool.or_eq_true, Bool.and_eq_true, decide_eq_true_eq] at h
  obtain (⟨hlower, -⟩ | ⟨hupper, -⟩) | rfl := h
  · exact .inr fun hdigit => absurd (Char.le_trans hlower hdigit) (by decide)
  · exact .inr fun hdigit => absurd (Char.le_trans hupper hdigit) (by decide)
  · decide

theorem token?_word {word : String} (h : IsWord word)
    (hrest : ∀ d ∈ rest.head?, isWordChar d = false) :
    token? (word.toList ++ rest) = some (wordToken word, rest) := by
  obtain ⟨c, hc, hstart⟩ := h.start
  obtain ⟨cs, hcs⟩ := List.head?_eq_some_iff.mp hc
  obtain ⟨htake, hdrop⟩ := span_append h.isWordChar rest hrest
  rw [hcs, List.cons_append] at htake hdrop
  rw [hcs, List.cons_append, token?_cons (Text.notMem_of_forall (by decide) hstart),
    if_neg (Text.notMem_of_forall (by decide) hstart), isDigit_of_isWordStart hstart, hstart,
    htake, hdrop, ← hcs, String.ofList_toList]
  rfl

theorem token?_numeral (n : Numeral)
    (hrest : ∀ d ∈ rest.head?, (Decimal.isDigit d || d = '.') = false) :
    token? (n.chars ++ rest) = some (.number (String.ofList n.chars), rest) := by
  obtain ⟨c, cs, hcs, hc⟩ := n.exists_magnitude_cons
  have hread := n.numberRest_append hrest
  rw [hcs, List.cons_append] at hread
  rw [Numeral.chars, hcs]
  split
  · rw [List.cons_append, List.cons_append, token?, if_pos hc, hread]
  · rw [List.cons_append, token?_cons (Text.notMem_of_forall (by decide) hc),
      if_neg (Text.notMem_of_forall (by decide) hc), if_pos hc, hread]

theorem token?_enclosed (q : Quote) (s : String) :
    token? ((q.enclosed s).toList ++ rest) = some (.string (q.enclosed s), rest) := by
  rw [Quote.enclosed, String.toList_ofList, List.cons_append,
    token?_cons (by cases q <;> decide), if_pos (by cases q <;> decide), List.append_assoc,
    List.cons_append, List.nil_append, q.stringRest?_append]
  rfl

/-- The first token is read up to where it cannot go on. -/
theorem token?_append (h : t.IsSpelled) (hrest : ∀ d ∈ rest.head?, t.goesOnWith d = false) :
    token? (t.spelling ++ rest) = some (t, rest) := by
  cases t with
  | true => exact token?_word ⟨⟨'t', rfl, rfl⟩, by decide⟩ hrest
  | false => exact token?_word ⟨⟨'f', rfl, rfl⟩, by decide⟩ hrest
  | null => exact token?_word ⟨⟨'n', rfl, rfl⟩, by decide⟩ hrest
  | identifier name => rw [Token.spelling, token?_word h.toIsWord hrest, h.wordToken_eq]
  | string literal =>
    obtain ⟨q, s, rfl⟩ := h
    exact token?_enclosed q s
  | number digits =>
    obtain ⟨n, rfl⟩ := h
    rw [Token.spelling, String.toList_ofList]
    exact token?_numeral n hrest
  | not =>
    -- With an equals sign behind it this would be another token.
    cases rest with
    | nil => rfl
    | cons c rest =>
      have hc : c ≠ '=' := by simpa [Token.goesOnWith] using hrest c rfl
      simp [Token.spelling, token?, hc]
  | openParenthesis | closeParenthesis | comma | dot | equal | notEqual | and | or => rfl

/-! ### Texts of tokens -/

theorem goesOnWith_of_isSeparator (t : Token) (h : isSeparator c = true) :
    t.goesOnWith c = false := by
  simp only [isSeparator, Bool.or_eq_true, decide_eq_true_eq] at h
  obtain ((rfl | rfl) | rfl) | rfl := h <;> cases t <;> rfl

theorem token?_eq_none (h : isSeparator c = true) (text : List Char) :
    token? (c :: text) = none := by
  simp only [isSeparator, Bool.or_eq_true, decide_eq_true_eq] at h
  obtain ((rfl | rfl) | rfl) | rfl := h <;> exact token?_cons (by decide) text

theorem spelling_ne_nil (h : t.IsSpelled) : t.spelling ≠ [] := by
  -- There is no token to be read off an empty text.
  intro hnil
  have hread : token? (t.spelling ++ []) = some (t, []) := token?_append h nofun
  rw [hnil] at hread
  exact nomatch hread

/-- The given tokens one after the other, with any separators before, between and after them. -/
inductive Spaced : List Token → List Char → Prop
  | nil (gap : List Char) : (∀ c ∈ gap, isSeparator c = true) → Spaced [] gap
  | cons {t : Token} {ts : List Token} {text : List Char} (gap : List Char) :
    (∀ c ∈ gap, isSeparator c = true) → Spaced ts text →
    Spaced (t :: ts) (gap ++ (t.spelling ++ text))

theorem tokensFrom_append_gap (hgap : ∀ c ∈ gap, isSeparator c = true) (fuel : Nat)
    (done : List Token) (text : List Char) :
    tokensFrom (gap.length + fuel) done (gap ++ text) = tokensFrom fuel done text := by
  induction gap with
  | nil => rw [List.length_nil, Nat.zero_add, List.nil_append]
  | cons c gap ih =>
    rw [List.forall_mem_cons] at hgap
    rw [List.length_cons, Nat.succ_add, List.cons_append, tokensFrom, if_pos hgap.1, ih hgap.2]

theorem tokensFrom_append_token (h : t.IsSpelled) (hrest : ∀ d ∈ rest.head?, t.goesOnWith d = false)
    (fuel : Nat) (done : List Token) :
    tokensFrom (fuel + 1) done (t.spelling ++ rest) = tokensFrom fuel (t :: done) rest := by
  have hread := token?_append h hrest
  obtain ⟨c, cs, hcs⟩ := List.exists_cons_of_ne_nil (spelling_ne_nil h)
  rw [hcs, List.cons_append] at hread ⊢
  have hc : ¬ isSeparator c = true := fun hc => by
    rw [token?_eq_none hc] at hread
    exact nomatch hread
  rw [tokensFrom, if_neg hc, hread]

/-- What comes after a token is a separator, or the beginning of a token that may touch it. -/
theorem Spaced.goesOnWith_head (h : Spaced ts text) (hspelled : ∀ t' ∈ ts, t'.IsSpelled)
    (htouch : ∀ t' ∈ ts.head?, t.MayTouch t') : ∀ d ∈ text.head?, t.goesOnWith d = false := by
  cases h with
  | nil _ hgap =>
    exact fun d hd => goesOnWith_of_isSeparator t (hgap d (List.mem_of_mem_head? hd))
  | @cons t' _ _ gap hgap =>
    cases gap with
    | nil =>
      rw [List.nil_append, List.head?_append_of_ne_nil _
        (spelling_ne_nil (hspelled t' (List.mem_cons_self ..)))]
      exact htouch t' rfl
    | cons c gap =>
      rintro _ ⟨⟩
      exact goesOnWith_of_isSeparator t (hgap c (List.mem_cons_self ..))

theorem tokensFrom_of_spaced (h : Spaced ts text) (hspelled : ∀ t ∈ ts, t.IsSpelled)
    (htouch : ts.IsChain Token.MayTouch) {fuel : Nat} (hfuel : text.length ≤ fuel)
    (done : List Token) : tokensFrom fuel done text = .ok (done.reverse ++ ts) := by
  induction h generalizing fuel done with
  | nil gap hgap =>
    obtain ⟨f, rfl⟩ := Nat.exists_eq_add_of_le hfuel
    have hread := tokensFrom_append_gap hgap f done []
    rw [List.append_nil] at hread
    rw [hread, List.append_nil]
    cases f <;> rfl
  | @cons t ts text gap hgap hspaced ih =>
    rw [List.forall_mem_cons] at hspelled
    rw [List.isChain_cons] at htouch
    -- The gap takes one step for each character and the token takes one more.
    have hpos := List.length_pos_of_ne_nil (spelling_ne_nil hspelled.1)
    rw [List.length_append, List.length_append] at hfuel
    obtain ⟨f, rfl⟩ : ∃ f, fuel = gap.length + (f + 1) :=
      ⟨fuel - gap.length - 1, by omega⟩
    rw [tokensFrom_append_gap hgap, tokensFrom_append_token hspelled.1
      (hspaced.goesOnWith_head hspelled.2 htouch.1), ih hspelled.2 htouch.2 (by omega),
      List.reverse_cons, List.append_assoc, List.singleton_append]

/-- Tokens that may touch are read back, whatever separators are around them. -/
theorem tokens_of_spaced (h : Spaced ts text) (hspelled : ∀ t ∈ ts, t.IsSpelled)
    (htouch : ts.IsChain Token.MayTouch) : tokens text = .ok ts :=
  tokensFrom_of_spaced h hspelled htouch (Nat.le_refl _) []

end Expression

end ContentTree
