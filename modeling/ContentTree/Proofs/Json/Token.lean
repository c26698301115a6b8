import ContentTree.Json.Printer
import ContentTree.Json.Token
import Mathlib.Data.List.TakeWhile

/-!
# Tokens of written documents

What is written is cut into the tokens that were meant. A number is the only token whose end shows
in what follows it; so no text that follows may go on with a character of a number.

## Main definitions

* `Ends`: a text does not go on with a number.
* `Lexes`: a text is cut into given tokens, whatever follows.

## Main results

* `token?_stringChars`: strings are read back, whatever they contain.
* `token?_digitChars`: so are the natural numbers that fit into 64 bits.
* `Lexes.append`: texts are cut one after the other.
-/

namespace ContentTree.Json

variable {c : Char} {cs rest : List Char} {n : Nat}

/-! ### Strings -/

theorem hexValue?_hexDigit : ∀ n < 16, Text.hexValue? (Text.hexDigit n) = some n := by
  decide

/-- Four digits are read back as the unit that they were written for. -/
theorem unit?_hexPadded (hn : n < 0x10000) : ∃ a b c d,
    Text.hexPadded 4 n = [a, b, c, d] ∧ unit? a b c d = some n := by
  refine ⟨_, _, _, _, rfl, ?_⟩
  simp only [unit?, hexValue?_hexDigit _ (Nat.mod_lt _ (by decide : 16 > 0)), Option.bind_eq_bind,
    Option.bind_some]
  refine congrArg some ?_
  omega

/-- However a character is written, it is read back. -/
theorem readPieces?_escapeChar (done : List Piece) (c : Char) (rest : List Char) :
    readPieces? done (escapeChar c ++ rest) = readPieces? (.char c :: done) rest := by
  unfold escapeChar
  split
  -- All letters after a backslash are read back at once. Of the other characters, controls are
  -- written by their numbers, and the rest stand as they are.
  case h_8 hquote hslash _ _ _ _ _ =>
    split
    case isTrue hcontrol =>
      -- The number is too small for half of a pair of surrogates.
      have hlt : c.toNat < 32 := hcontrol
      obtain ⟨a, b, d, e, hdigits, hunit⟩ := unit?_hexPadded (n := c.toNat) (by omega)
      have hpiece : Piece.ofUnit c.toNat = .char c := by
        rw [Piece.ofUnit, if_pos (by simp; omega), Char.ofNat_toNat]
      simp only [hdigits, List.cons_append, List.nil_append, readPieces?, hunit, hpiece]
    case isFalse hplain =>
      rw [List.singleton_append, readPieces?]
      · rw [if_neg hplain]
      · exact hquote
      · exact fun _ _ _ _ _ h _ => hslash h
      · exact fun _ _ h _ => hslash h
  all_goals rfl

theorem readPieces?_flatMap (done : List Piece) (cs rest : List Char) :
    readPieces? done (cs.flatMap escapeChar ++ '"' :: rest) =
      some (done.reverse ++ cs.map .char, rest) := by
  induction cs generalizing done with
  | nil => simp [readPieces?]
  | cons c cs ih =>
    rw [List.flatMap_cons, List.append_assoc, readPieces?_escapeChar, ih]
    simp

theorem joinPieces?_map_char (done cs : List Char) :
    joinPieces? done (cs.map .char) = some (done.reverse ++ cs) := by
  induction cs generalizing done with
  | nil => simp [joinPieces?]
  | cons c cs ih =>
    rw [List.map_cons, joinPieces?, ih]
    simp

/-- A string is read back, whatever it contains. -/
theorem token?_stringChars (s : String) (rest : List Char) :
    token? (stringChars s ++ rest) = some (.string (some s), rest) := by
  have hread : readString? (s.toList.flatMap escapeChar ++ '"' :: rest) = some (some s, rest) := by
    rw [readString?, readPieces?_flatMap]
    simp [joinPieces?_map_char]
  simp [stringChars, token?, hread]

/-! ### Numbers -/

theorem isDigit_of_mem_digitChars (hc : c ∈ Decimal.digitChars n) : Decimal.isDigit c = true := by
  have h := Nat.isDigit_of_mem_toDigits (by decide) (by decide) hc
  rw [Char.isDigit, Bool.and_eq_true, decide_eq_true_iff, decide_eq_true_iff] at h
  rw [Decimal.isDigit, Bool.and_eq_true, decide_eq_true_iff, decide_eq_true_iff]
  exact h

/-- There is at least one digit. -/
theorem exists_digitChars (n : Nat) :
    ∃ c cs, Decimal.digitChars n = c :: cs ∧ Decimal.isDigit c = true := by
  cases hdigits : Decimal.digitChars n with
  | nil => exact absurd hdigits Nat.toDigits_ne_nil
  | cons c cs => exact ⟨c, cs, rfl, isDigit_of_mem_digitChars (hdigits ▸ List.mem_cons_self)⟩

theorem value_digitChars (n : Nat) : Decimal.valueFrom 0 (Decimal.digitChars n) = n :=
  Nat.ofDigitChars_ten_toDigits

/-- Only zero has a zero in front. -/
theorem head?_digitChars_ne (hn : 0 < n) : (Decimal.digitChars n).head? ≠ some '0' := by
  induction n using Nat.strongRecOn with
  | ind n ih =>
    rw [Decimal.digitChars, Nat.toDigits_eq_if (by decide)]
    -- The last digit is split off, and the others are those of a smaller number.
    split
    case isTrue hlt =>
      have hsmall : ∀ n < 10, 0 < n → n.digitChar ≠ '0' := by decide
      simpa using hsmall n hlt hn
    case isFalse hge =>
      have hrest := ih (n / 10) (by omega) (by omega)
      rwa [List.head?_append, Option.or_of_isSome (by simp)]

theorem le_valueFrom (start : Nat) (cs : List Char) : start ≤ Decimal.valueFrom start cs := by
  induction cs generalizing start with
  | nil => exact Nat.le_refl start
  | cons c cs ih => exact Nat.le_trans (by omega) (ih (10 * start + (c.toNat - 48)))

/-- Digits are all kept where the number fits. -/
theorem whole_eq (s : Significand) (h : Decimal.valueFrom s.digits cs < wholeBound) :
    s.whole cs = ⟨Decimal.valueFrom s.digits cs, s.power⟩ := by
  induction cs generalizing s with
  | nil => rfl
  | cons c cs ih =>
    -- What has been read so far fits because all of it does.
    have hstep : Decimal.valueFrom s.digits (c :: cs) =
        Decimal.valueFrom (Decimal.valueFrom s.digits [c]) cs := rfl
    rw [hstep] at h ⊢
    rw [Significand.whole, if_pos (Nat.lt_of_le_of_lt (le_valueFrom _ cs) h), ih _ h]

theorem magnitude?_digitChars (hn : n < wholeBound) :
    magnitude? (Decimal.digitChars n) = some (.inl n) := by
  have hwhole : Significand.whole ⟨0, 0⟩ (Decimal.digitChars n) =
      ⟨Decimal.valueFrom 0 (Decimal.digitChars n), 0⟩ :=
    whole_eq ⟨0, 0⟩ (by rwa [value_digitChars])
  have htake : (Decimal.digitChars n).takeWhile Decimal.isDigit = Decimal.digitChars n :=
    List.takeWhile_eq_self_iff.mpr fun _ => isDigit_of_mem_digitChars
  have hdrop : (Decimal.digitChars n).dropWhile Decimal.isDigit = [] :=
    List.dropWhile_eq_nil_iff.mpr fun _ => isDigit_of_mem_digitChars
  -- There is a digit, and no zero in front of others.
  have hform : ((Decimal.digitChars n).isEmpty ||
      ((Decimal.digitChars n).head? = some '0' && 1 < (Decimal.digitChars n).length)) = false := by
    rcases Nat.eq_zero_or_pos n with rfl | hpos
    · rfl
    · have hhead := head?_digitChars_ne hpos
      rw [Decimal.digitChars] at hhead
      simp [hhead, Decimal.digitChars]
  rw [value_digitChars] at hwhole
  simp [magnitude?, htake, hdrop, hwhole, hform]

/-- A natural number that fits into 64 bits is read back. -/
theorem Number.read?_digitChars (hn : n < wholeBound) :
    Number.read? (Decimal.digitChars n) = some (.natural n) := by
  rw [Number.read?]
  · rw [magnitude?_digitChars hn]
  · intro text h
    have hminus : '-' ∈ Decimal.digitChars n := h ▸ List.mem_cons_self
    exact nomatch isDigit_of_mem_digitChars hminus

/-- A text does not go on with a number. -/
def Ends (rest : List Char) : Prop :=
  rest.head?.all (fun c => !isNumberChar c) = true

/-- A number ends where no character of a number follows. -/
theorem token?_digitChars (hn : n < wholeBound) (hrest : Ends rest) :
    token? (Decimal.digitChars n ++ rest) = some (.word (nat n), rest) := by
  have hchars : ∀ c ∈ Decimal.digitChars n, isNumberChar c = true := fun c hc => by
    simp [isNumberChar, isDigit_of_mem_digitChars hc]
  have hends : rest.takeWhile isNumberChar = [] ∧ rest.dropWhile isNumberChar = rest := by
    cases rest with
    | nil => exact ⟨rfl, rfl⟩
    | cons c rest =>
      have hc : isNumberChar c = false := by simpa [Ends] using hrest
      simp [hc]
  -- A digit begins no other token.
  have hhead : ∀ d text, Decimal.isDigit d = false → Decimal.digitChars n ++ rest ≠ d :: text := by
    intro d text hd h
    obtain ⟨c, cs, hdigits, hc⟩ := exists_digitChars n
    rw [hdigits] at h
    rw [(List.cons.inj h).1, hd] at hc
    exact nomatch hc
  rw [token?]
  · rw [List.takeWhile_append_of_pos hchars, List.dropWhile_append_of_pos hchars, hends.1, hends.2,
      List.append_nil, Number.read?_digitChars hn]
    rfl
  all_goals exact fun text h => hhead _ _ rfl h

/-! ### Texts of several tokens -/

/-- A text is cut into the given tokens, whatever follows that does not go on with a number. The
steps that are left are enough for what follows. -/
def Lexes (text : List Char) (tokens : List Token) : Prop :=
  ∀ rest, Ends rest → ∀ done fuel, (text ++ rest).length ≤ fuel → ∃ fuel', rest.length ≤ fuel' ∧
    tokensFrom? fuel done (text ++ rest) = tokensFrom? fuel' (tokens.reverse ++ done) rest

namespace Lexes

variable {text text' : List Char} {tokens tokens' : List Token} {token : Token}

theorem nil : Lexes [] [] :=
  fun _ _ _ fuel hfuel => ⟨fuel, hfuel, rfl⟩

/-- A text after another may not begin like a number. -/
theorem append (h : Lexes text tokens) (h' : Lexes text' tokens')
    (hends : ∀ rest, Ends (text' ++ rest)) : Lexes (text ++ text') (tokens ++ tokens') := by
  intro rest hrest done fuel hfuel
  rw [List.append_assoc] at hfuel ⊢
  obtain ⟨fuel₁, hfuel₁, hrun⟩ := h (text' ++ rest) (hends rest) done fuel hfuel
  obtain ⟨fuel₂, hfuel₂, hrun'⟩ := h' rest hrest (tokens.reverse ++ done) fuel₁ hfuel₁
  exact ⟨fuel₂, hfuel₂, by rw [hrun, hrun', List.reverse_append, List.append_assoc]⟩

/-- Separators are passed over. -/
theorem separator (hc : isSeparator c = true) (h : Lexes text tokens) :
    Lexes (c :: text) tokens := by
  intro rest hrest done fuel hfuel
  cases fuel with
  | zero => exact nomatch hfuel
  | succ fuel =>
    rw [List.cons_append, tokensFrom?, if_pos hc]
    exact h rest hrest done fuel (Nat.le_of_succ_le_succ hfuel)

theorem newline (level : Nat) (h : Lexes text tokens) : Lexes (newline level ++ text) tokens := by
  refine separator rfl ?_
  induction 2 * level with
  | zero => exact h
  | succ k ih => exact separator rfl ih

/-- A single character may be a token, whatever follows. -/
theorem cons (hc : isSeparator c = false) (htoken : ∀ rest, token? (c :: rest) = some (token, rest))
    (h : Lexes text tokens) : Lexes (c :: text) (token :: tokens) := by
  intro rest hrest done fuel hfuel
  cases fuel with
  | zero => exact nomatch hfuel
  | succ fuel =>
    obtain ⟨fuel', hfuel', hrun⟩ :=
      h rest hrest (token :: done) fuel (Nat.le_of_succ_le_succ hfuel)
    refine ⟨fuel', hfuel', ?_⟩
    rw [List.cons_append, tokensFrom?, if_neg (by simp [hc]), htoken]
    simpa using hrun

/-- So may several characters, up to the end of a number. -/
theorem single (hc : isSeparator c = false)
    (htoken : ∀ rest, Ends rest → token? (c :: text ++ rest) = some (token, rest)) :
    Lexes (c :: text) [token] := by
  intro rest hrest done fuel hfuel
  cases fuel with
  | zero => exact nomatch hfuel
  | succ fuel =>
    refine ⟨fuel, ?_, ?_⟩
    · have hlength : (text ++ rest).length ≤ fuel := Nat.le_of_succ_le_succ hfuel
      exact (List.length_append ▸ hlength).trans' (Nat.le_add_left _ _)
    · rw [List.cons_append, tokensFrom?, if_neg (by simp [hc]), ← List.cons_append,
        htoken rest hrest]
      rfl

theorem stringChars (s : String) : Lexes (stringChars s) [.string (some s)] :=
  single rfl fun rest _ => token?_stringChars s rest

theorem digitChars (hn : n < wholeBound) : Lexes (Decimal.digitChars n) [.word (nat n)] := by
  have h : ∀ rest, Ends rest →
      token? (Decimal.digitChars n ++ rest) = some (.word (nat n), rest) :=
    fun _ hrest => token?_digitChars hn hrest
  obtain ⟨c, cs, hdigits, hc⟩ := exists_digitChars n
  rw [hdigits] at h ⊢
  refine single ?_ h
  -- No separator is a digit.
  by_contra hseparator
  simp only [isSeparator, Bool.not_eq_false, Bool.or_eq_true, decide_eq_true_iff] at hseparator
  rcases hseparator with ((rfl | rfl) | rfl) | rfl <;> exact nomatch hc

/-- The tokens of a whole text. -/
theorem tokens?_eq (h : Lexes text tokens) : tokens? text = some tokens := by
  obtain ⟨fuel, -, hrun⟩ := h [] rfl [] text.length (by simp)
  rw [List.append_nil] at hrun
  rw [tokens?, hrun, List.append_nil]
  cases fuel <;> simp [tokensFrom?]

end Lexes

end ContentTree.Json
