import ContentTree.Expression.Placeholder
import ContentTree.Expression.Token
import ContentTree.Proofs.Text.Search
import Mathlib.Data.List.TakeWhile

/-!
# Placeholders are replaced

The end of a placeholder is found without cutting its expression into tokens: only quotes,
backslashes and braces are looked at. Whatever can be cut into tokens is passed over in this way as
a whole, since the strings of an expression end where the search takes them to end and outside of
strings there are no braces. A text with placeholders in it then falls into the literal texts and
the expressions it was made of.

## Main definitions

* `Passes`: a text that is passed over between two places.
* `Segment`: a literal text with a placeholder behind it.
* `fill`: the pieces of a text put together.

## Main results

* `passes_of_tokensFrom`: what can be cut into tokens is passed over.
* `body?_of_tokens`: the search for the end of a placeholder finds the end.
* `interpolate_segments`: each placeholder is replaced by the value of its expression, and nothing
  else is.
-/

namespace ContentTree.Placeholder

open Expression (Token token? tokens tokensFrom stringRest? numberRest)

variable {p q r : Place} {cs text rest : List Char} {c quote : Char} {depth : Nat}

/-! ### Passing over -/

/-- No brace of the text closes the placeholder on the way from one place to another. -/
def Passes (p q : Place) (cs : List Char) : Prop :=
  ∀ rest, bodyFrom? p (cs ++ rest) = (bodyFrom? q rest).map (cs ++ ·)

namespace Passes

theorem nil : Passes p p [] := by
  intro rest
  simp

theorem cons (h : p.next? c = some q) (hcs : Passes q r cs) : Passes p r (c :: cs) := by
  intro rest
  rw [List.cons_append, bodyFrom?, h]
  dsimp only
  rw [hcs, Option.map_map]
  rfl

theorem append {ds : List Char} (hcs : Passes p q cs) (hds : Passes q r ds) :
    Passes p r (cs ++ ds) := by
  intro rest
  rw [List.append_assoc, hcs, hds, Option.map_map]
  congr 1
  funext ds
  exact (List.append_assoc ..).symm

end Passes

/-- The characters that are looked at outside of strings. -/
def marks : List Char := ['"', '\'', '\x7b', '\x7d']

theorem next?_of_notMem (h : c ∉ marks) : (Place.code depth).next? c = some (.code depth) := by
  simp only [marks, List.mem_cons, List.not_mem_nil, or_false, not_or] at h
  simp [Place.next?, h]

theorem passes_of_notMem (h : ∀ c ∈ cs, c ∉ marks) : Passes (.code depth) (.code depth) cs := by
  induction cs with
  | nil => exact .nil
  | cons c cs ih =>
    rw [List.forall_mem_cons] at h
    exact .cons (next?_of_notMem h.1) (ih h.2)

/-! ### Tokens -/

/-- A string ends where the search takes it to end. -/
theorem passes_of_stringRest? {inner : List Char} (hquote : quote ≠ '\\')
    (h : stringRest? quote text = some (inner, rest)) :
    text = inner ++ rest ∧ Passes (.quoted quote depth) (.code depth) inner := by
  have hend : (Place.quoted quote depth).next? quote = some (.code depth) := by
    simp [Place.next?, hquote]
  fun_induction stringRest? quote text generalizing inner rest with
  | case1 => exact nomatch h
  | case2 =>
    cases h
    exact ⟨rfl, .cons hend .nil⟩
  | case3 => exact nomatch h
  | case4 =>
    cases h
    exact ⟨rfl, .cons hend .nil⟩
  | case5 => exact nomatch h
  | case6 d text _ _ ih =>
    obtain ⟨⟨inner, rest⟩, hrest, heq⟩ := Option.map_eq_some_iff.mp h
    cases heq
    obtain ⟨rfl, hinner⟩ := ih hrest
    have hescape : (Place.quoted quote depth).next? '\\' = some (.escaped quote depth) := by
      simp [Place.next?]
    exact ⟨rfl, .cons hescape (.cons rfl hinner)⟩
  | case7 c d text hc hescape ih =>
    obtain ⟨⟨inner, rest⟩, hrest, heq⟩ := Option.map_eq_some_iff.mp h
    cases heq
    obtain ⟨htext, hinner⟩ := ih hrest
    exact ⟨by rw [htext, List.cons_append], .cons (by simp [Place.next?, hc, hescape]) hinner⟩

theorem numberRest_eq (text : List Char) :
    text = (numberRest text).1 ++ (numberRest text).2 ∧
      ∀ c ∈ (numberRest text).1, c ∉ marks := by
  have hdigits : ∀ cs : List Char, ∀ c ∈ cs.takeWhile Decimal.isDigit, c ∉ marks :=
    fun cs c hc => Text.notMem_of_forall (by decide) (List.mem_takeWhile_imp hc)
  have hsplit := (List.takeWhile_append_dropWhile (p := Decimal.isDigit) (l := text)).symm
  unfold numberRest
  dsimp only
  split
  next rest hrest =>
    rw [hrest] at hsplit
    split
    · exact ⟨hsplit, hdigits text⟩
    · constructor
      · rw [List.append_assoc, List.cons_append, List.takeWhile_append_dropWhile]
        exact hsplit
      · intro c hc
        rcases List.mem_append.mp hc with hc | hc
        · exact hdigits text c hc
        · rcases List.mem_cons.mp hc with rfl | hc
          · decide
          · exact hdigits rest c hc
  next => exact ⟨hsplit, hdigits text⟩

/-- A token is passed over as a whole. -/
theorem passes_of_token? {token : Token} (h : token? text = some (token, rest)) :
    ∃ used, text = used ++ rest ∧ Passes (.code depth) (.code depth) used := by
  have hnumber : ∀ text, Passes (.code depth) (.code depth) (numberRest text).1 := fun text =>
    passes_of_notMem (numberRest_eq text).2
  unfold token? at h
  split at h
  case h_10 c text =>
    split at h
    · cases h
      exact ⟨'-' :: _, congrArg ('-' :: ·) (numberRest_eq (c :: text)).1,
        .cons (next?_of_notMem (by decide)) (hnumber _)⟩
    · exact nomatch h
  case h_11 c text _ _ _ _ _ _ _ _ _ _ =>
    split at h
    next hquote =>
      obtain ⟨⟨inner, rest⟩, hrest, heq⟩ := Option.map_eq_some_iff.mp h
      cases heq
      have hc : c ≠ '\\' := by
        rintro rfl
        exact absurd hquote (by decide)
      obtain ⟨rfl, hinner⟩ := passes_of_stringRest? hc hrest
      refine ⟨c :: inner, rfl, .cons ?_ hinner⟩
      rw [Place.next?, if_pos hquote]
    next =>
      split at h
      · cases h
        exact ⟨_, (numberRest_eq (c :: text)).1, hnumber _⟩
      · split at h
        · cases h
          exact ⟨_, List.takeWhile_append_dropWhile.symm, passes_of_notMem fun d hd =>
            Text.notMem_of_forall (by decide) (List.mem_takeWhile_imp hd)⟩
        · exact nomatch h
  case h_12 => exact nomatch h
  all_goals
    cases h
    first
      | exact ⟨[_], rfl, passes_of_notMem (by decide)⟩
      | exact ⟨[_, _], rfl, passes_of_notMem (by decide)⟩

/-- What can be cut into tokens is passed over. -/
theorem passes_of_tokensFrom {fuel : Nat} {done ts : List Token}
    (h : tokensFrom fuel done text = .ok ts) : Passes (.code depth) (.code depth) text := by
  fun_induction tokensFrom fuel done text with
  | case1 => exact .nil
  | case2 => exact nomatch h
  | case3 fuel done c text hc ih =>
    exact .cons (next?_of_notMem (Text.notMem_of_forall (by decide) hc)) (ih h)
  | case4 fuel done c text _ token rest htoken ih =>
    obtain ⟨used, heq, hused⟩ : ∃ used, c :: text = used ++ rest ∧
        Passes (.code depth) (.code depth) used := passes_of_token? htoken
    exact heq ▸ hused.append (ih h)
  | case5 => exact nomatch h

/-- The search for the end of a placeholder finds the end. -/
theorem body?_of_tokens {ts : List Token} (h : tokens text = .ok ts) (rest : List Char) :
    body? (text ++ '\x7d' :: rest) = some text := by
  have hend : bodyFrom? (.code 0) ('\x7d' :: rest) = some [] := rfl
  rw [body?, passes_of_tokensFrom h, hend, Option.map_some, List.append_nil]

/-- Without a closing brace there is no end to find. -/
theorem body?_eq_none_of_notMem (h : '\x7d' ∉ text) : body? text = none := by
  have hany : ∀ p, bodyFrom? p text = none := by
    induction text with
    | nil => exact fun _ => rfl
    | cons c text ih =>
      rw [List.mem_cons, not_or] at h
      intro p
      obtain ⟨q, hq⟩ : ∃ q, p.next? c = some q := by
        cases p with
        | code depth =>
          rw [Place.next?, if_neg (Ne.symm h.1)]
          split_ifs <;> exact ⟨_, rfl⟩
        | quoted quote depth =>
          rw [Place.next?]
          split_ifs <;> exact ⟨_, rfl⟩
        | escaped => exact ⟨_, rfl⟩
      rw [bodyFrom?, hq]
      dsimp only
      rw [ih h.2, Option.map_none]
  exact hany _

/-! ### Pieces -/

/-- A literal text goes before the pieces of what follows it. -/
theorem pieces_append (h : ¬ opening <:+: cs) (hrest : rest.head? ≠ some '\x7b') :
    pieces (cs ++ rest) = cs.foldr addChar (pieces rest) := by
  induction cs with
  | nil => rfl
  | cons c cs ih =>
    rw [List.infix_cons_iff, not_or] at h
    have hnone : Text.after? opening (c :: (cs ++ rest)) = none := by
      rw [Text.after?_eq_none_iff, opening, List.cons_prefix_cons]
      rintro ⟨rfl, hbrace⟩
      cases cs with
      | nil =>
        obtain ⟨after, rfl⟩ := hbrace
        exact hrest rfl
      | cons d cs =>
        obtain rfl := (List.cons_prefix_cons.mp hbrace).1
        exact h.1 ⟨cs, rfl⟩
    rw [List.cons_append, pieces, piecesFrom, hnone]
    exact congrArg (addChar c) (ih h.2)

theorem piecesFrom_append_skip (cs rest : List Char) :
    piecesFrom cs.length (cs ++ rest) = pieces rest := by
  induction cs with
  | nil => rfl
  | cons c cs ih => rw [List.length_cons, List.cons_append, piecesFrom, ih]

theorem pieces_opening (text : List Char) : pieces (opening ++ text) =
    match body? text with
    | some e => .expression e :: piecesFrom (e.length + 2) ('\x7b' :: text)
    | none => [.literal (opening ++ text)] := by
  rw [opening, List.cons_append, pieces, piecesFrom, ← List.cons_append, ← opening,
    Text.after?_append]
  rfl

theorem pieces_placeholder {ts : List Token} (h : tokens text = .ok ts) (rest : List Char) :
    pieces (opening ++ (text ++ '\x7d' :: rest)) = .expression text :: pieces rest := by
  have hskip := piecesFrom_append_skip ('\x7b' :: (text ++ ['\x7d'])) rest
  simp only [List.length_cons, List.length_append, List.length_nil, List.cons_append,
    List.append_assoc, List.nil_append] at hskip
  rw [pieces_opening, body?_of_tokens h]
  exact congrArg _ hskip

theorem pieces_unclosed (h : body? text = none) :
    pieces (opening ++ text) = [.literal (opening ++ text)] := by
  rw [pieces_opening, h]

/-! ### Putting the pieces together -/

/-- What stands for the value of an expression, if there is one. -/
def shown (v : Option Value) : String :=
  v.elim "" Value.text

section Fill

variable {m : Type → Type} [Monad m] {evaluate : String → m (Option Value)} {ps : List Piece}

/-- What a piece is replaced by. -/
def Piece.fill (evaluate : String → m (Option Value)) : Piece → m String
  | .literal text => return String.ofList text
  | .expression source => do return shown (← evaluate (String.ofList source))

/-- The pieces of a text put together. -/
def fill (evaluate : String → m (Option Value)) (ps : List Piece) : m String := do
  return String.join (← ps.mapM (Piece.fill evaluate))

theorem interpolate_eq (text : String) :
    interpolate evaluate text = fill evaluate (pieces text.toList) := by
  rw [interpolate, fill]
  congr 2
  funext piece
  cases piece with
  | literal => rfl
  | expression source =>
    refine bind_congr fun v => ?_
    cases v <;> rfl

variable [LawfulMonad m]

theorem fill_nil : fill evaluate [] = pure "" := by
  simp [fill]

theorem fill_cons (piece : Piece) (ps : List Piece) : fill evaluate (piece :: ps) = do
    let first ← piece.fill evaluate
    let others ← fill evaluate ps
    return first ++ others := by
  simp [fill]

theorem fill_addChar (c : Char) (ps : List Piece) : fill evaluate (addChar c ps) = do
    let others ← fill evaluate ps
    return String.singleton c ++ others := by
  unfold addChar
  split
  · simp only [fill_cons, Piece.fill, pure_bind, bind_assoc, String.ofList_cons,
      String.append_assoc]
  · simp only [fill_cons, Piece.fill, pure_bind]
    rfl

theorem fill_foldr_addChar (cs : List Char) (ps : List Piece) :
    fill evaluate (cs.foldr addChar ps) = do
      let others ← fill evaluate ps
      return String.ofList cs ++ others := by
  induction cs with
  | nil => simp
  | cons c cs ih =>
    simp only [List.foldr_cons, fill_addChar, ih, bind_assoc, pure_bind, String.ofList_cons,
      String.append_assoc]

end Fill

/-! ### Texts with placeholders -/

/-- A literal text and the expression of the placeholder behind it. -/
structure Segment where
  literal : String
  expression : String

namespace Segment

/-- A segment as it is written. -/
def written (s : Segment) : String :=
  s.literal ++ "$\x7b" ++ s.expression ++ "\x7d"

/-- The literal text opens no placeholder, and the expression can be cut into tokens. -/
structure IsProper (s : Segment) : Prop where
  literal : Text.contains s.literal "$\x7b" = false
  expression : ∃ ts, tokens s.expression.toList = .ok ts

theorem toList_written (s : Segment) (rest : List Char) : s.written.toList ++ rest =
    s.literal.toList ++ (opening ++ (s.expression.toList ++ '\x7d' :: rest)) := by
  simp [written, opening]

end Segment

theorem not_infix_of_contains {s : String} (h : Text.contains s "$\x7b" = false) :
    ¬ opening <:+: s.toList := by
  rw [Text.contains, ← Bool.not_eq_true, Text.occurs_iff_infix] at h
  exact h

section Segments

variable {m : Type → Type} [Monad m] [LawfulMonad m] (evaluate : String → m (Option Value))

theorem fill_segments {segments : List Segment} (h : ∀ s ∈ segments, s.IsProper)
    (rest : List Char) :
    fill evaluate (pieces ((String.join (segments.map Segment.written)).toList ++ rest)) = do
      let parts ← segments.mapM fun s => do return s.literal ++ shown (← evaluate s.expression)
      let others ← fill evaluate (pieces rest)
      return String.join parts ++ others := by
  induction segments with
  | nil =>
    simp only [List.map_nil, List.mapM_nil, pure_bind, String.join_nil, String.toList_empty,
      List.nil_append, String.empty_append, bind_pure]
  | cons s segments ih =>
    rw [List.forall_mem_cons] at h
    obtain ⟨ts, hts⟩ := h.1.expression
    have hliteral := not_infix_of_contains h.1.literal
    rw [List.map_cons, String.join_cons, String.toList_append, List.append_assoc,
      Segment.toList_written, pieces_append hliteral (by simp [opening]), pieces_placeholder hts,
      fill_foldr_addChar, fill_cons, ih h.2]
    simp only [Piece.fill, List.mapM_cons, bind_assoc, pure_bind, String.ofList_toList,
      String.join_cons, String.append_assoc]

/-- A text that opens no placeholder stays as it is, also before a placeholder that is never
closed. -/
theorem fill_last {last : String} (h : Text.contains last "$\x7b" = false)
    {unclosed : Option String} (hunclosed : ∀ u ∈ unclosed, body? u.toList = none) :
    fill evaluate (pieces (last.toList ++ (unclosed.elim "" ("$\x7b" ++ ·)).toList)) =
      pure (last ++ unclosed.elim "" ("$\x7b" ++ ·)) := by
  have hlast := not_infix_of_contains h
  cases unclosed with
  | none =>
    have hpieces : pieces (last.toList ++ []) = last.toList.foldr addChar [] :=
      pieces_append hlast nofun
    simp only [Option.elim_none, String.toList_empty, hpieces, fill_foldr_addChar, fill_nil,
      pure_bind, String.ofList_toList]
  | some u =>
    have hu : ("$\x7b" ++ u).toList = opening ++ u.toList := by simp [opening]
    rw [Option.elim_some, hu, pieces_append hlast (by simp [opening]), fill_foldr_addChar,
      pieces_unclosed (hunclosed u rfl), fill_cons, fill_nil]
    simp only [Piece.fill, pure_bind, String.ofList_toList, String.append_empty, ← hu]

/-- Exactly the placeholders are replaced. Where literal texts and placeholders alternate, each
expression is evaluated once, from left to right, and its value stands in its place, or nothing
where it has none. What comes out of an evaluation is not looked at again. A placeholder at the end
that is not closed stays as it is, with all that follows: one without a closing brace behind it, or
where all closing braces stand in strings or close others. -/
theorem interpolate_segments {segments : List Segment} (h : ∀ s ∈ segments, s.IsProper)
    {last : String} (hlast : Text.contains last "$\x7b" = false) {unclosed : Option String}
    (hunclosed : ∀ u ∈ unclosed, '\x7d' ∉ u.toList ∨ body? u.toList = none) :
    interpolate evaluate (String.join (segments.map Segment.written) ++ last ++
        unclosed.elim "" ("$\x7b" ++ ·)) = do
      let parts ← segments.mapM fun s => do return s.literal ++ shown (← evaluate s.expression)
      return String.join parts ++ last ++ unclosed.elim "" ("$\x7b" ++ ·) := by
  have hnone : ∀ u ∈ unclosed, body? u.toList = none := fun u hu =>
    (hunclosed u hu).elim body?_eq_none_of_notMem id
  rw [interpolate_eq, String.append_assoc, String.toList_append, fill_segments evaluate h,
    String.toList_append, fill_last evaluate hlast hnone]
  simp only [pure_bind, String.append_assoc]

end Segments

/-- Literal texts with dollars and braces, and expressions with braces, quotes and openings of
placeholders in their strings. -/
def intricateSegments : List Segment :=
  [⟨"a $", "'\x7d' == \"\\\"\x7b\""⟩, ⟨"\x7b\x7d", "empty('$\x7b\\'')"⟩, ⟨"", ""⟩]

/-- Remembers what it is asked for. The value of an expression is a placeholder again, and an empty
one has no value. -/
def remembering (source : String) : StateM (List String) (Option Value) := do
  modify (· ++ [source])
  return if source = "" then none else some (.string ("$\x7b" ++ source ++ "\x7d"))

/-- Each expression is evaluated once and in its turn, and its value is not looked into. -/
theorem interpolate_segments_intricate :
    (∀ s ∈ intricateSegments, s.IsProper) ∧
      (interpolate remembering ("a $$\x7b'\x7d' == \"\\\"\x7b\"\x7d\x7b\x7d" ++
        "$\x7bempty('$\x7b\\'')\x7d$\x7b\x7db $$\x7b'\x7d")).run [] =
      ("a $$\x7b'\x7d' == \"\\\"\x7b\"\x7d\x7b\x7d$\x7bempty('$\x7b\\'')\x7db $$\x7b'\x7d",
        ["'\x7d' == \"\\\"\x7b\"", "empty('$\x7b\\'')", ""]) := by
  have hproper : ∀ s ∈ intricateSegments, s.IsProper := by
    simp only [intricateSegments, List.forall_mem_cons, List.not_mem_nil, false_imp_iff,
      implies_true, and_true]
    refine ⟨⟨by decide, [.string "'\x7d'", .equal, .string "\"\\\"\x7b\""], by decide +kernel⟩,
      ⟨by decide, [.identifier "empty", .openParenthesis, .string "'$\x7b\\''", .closeParenthesis],
        by decide +kernel⟩, by decide, [], rfl⟩
  have hlast : Text.contains "b $" "$\x7b" = false := by decide
  have hunclosed : ∀ u ∈ some "'\x7d", '\x7d' ∉ u.toList ∨ body? u.toList = none := by decide
  have htext : "a $$\x7b'\x7d' == \"\\\"\x7b\"\x7d\x7b\x7d" ++
      "$\x7bempty('$\x7b\\'')\x7d$\x7b\x7db $$\x7b'\x7d" =
        String.join (intricateSegments.map Segment.written) ++ "b $" ++
          (some "'\x7d").elim "" ("$\x7b" ++ ·) := by decide +kernel
  refine ⟨hproper, ?_⟩
  rw [htext, interpolate_segments remembering hproper hlast hunclosed]
  rfl

end ContentTree.Placeholder
