import ContentTree.Proofs.Expression.Grammar
import ContentTree.Proofs.Expression.Spelling
import Mathlib.Logic.Function.Iterate

/-!
# Writing expressions

How expressions are written: every operand that does not bind more tightly than its operator stands
in parentheses. The grammar derives what is written, and nowhere in it do two tokens need a
separator, so any text of its tokens is read as the expression it was written for.

## Main definitions

* `Operator`: the operators between two operands.
* `rule`: the rule that an expression is written by.
* `Written`: the tokens of an expression, for any choice of quotes around its strings and of digits
  for its numbers.
* `IsPrintable`: an expression of names, of texts, and of numbers that are given by their digits.
* `Legible`: tokens that need no separators.

## Main results

* `IsPrintable.exists_written`: every printable expression can be written.
* `Written.derives`: the grammar derives what is written.
* `Written.legible`: what is written needs no separators.
* `parse_written`: what is written is read as what it was written for.
-/

namespace ContentTree

namespace Expression

variable {e : Expression} {ts us : List Token} {t : Token} {name : String} {r outer : Rule}

/-! ### Writing -/

/-- An operator between two operands. -/
inductive Operator
  | or
  | and
  | equal
  | notEqual

namespace Operator

/-- The operator as a token. -/
def token : Operator → Token
  | or => .or
  | and => .and
  | equal => .equal
  | notEqual => .notEqual

/-- The rule for the operator. -/
def rule : Operator → Rule
  | or => .disjunction
  | and => .conjunction
  | equal | notEqual => .comparison

/-- The expression of an operator and its operands. -/
def join : Operator → Expression → Expression → Expression
  | or => .or
  | and => .and
  | equal => .equal
  | notEqual => .notEqual

end Operator

/-- The rule that an expression is written by, unless it stands in parentheses. -/
def rule : Expression → Rule
  | or .. => .disjunction
  | and .. => .conjunction
  | equal .. | notEqual .. => .comparison
  | not _ => .negation
  | literal _ | path .. | call .. => .primary

/-- Tokens in parentheses. -/
def parenthesized (ts : List Token) : List Token :=
  .openParenthesis :: (ts ++ [.closeParenthesis])

/-- The tokens of an operand, in parentheses unless it binds more tightly than the rule for its
operator. -/
def operand (outer : Rule) (e : Expression) (ts : List Token) : List Token :=
  if outer.depth ≤ e.rule.depth then parenthesized ts else ts

/-- The tokens that an expression is written with. -/
inductive Written : Expression → List Token → Prop
  | boolean (b : Bool) : Written (.literal (.boolean b)) [if b then .true else .false]
  | null : Written (.literal .null) [.null]
  | string (q : Quote) (s : String) : Written (.literal (.string s)) [.string (q.enclosed s)]
  | number (n : Numeral) :
    Written (.literal (.number n.value)) [.number (String.ofList n.chars)]
  | path {head : String} {names : List String} : IsName head → (∀ name ∈ names, IsName name) →
    Written (.path head names) (.identifier head :: dotted names)
  | call {name : String} {args : List (List Token × Expression)} : IsName name →
    (∀ a ∈ args, Written a.2 a.1) →
    Written (.call name (args.map Prod.snd)) (.identifier name :: parenthesized (listed args))
  | not {e : Expression} {ts : List Token} : Written e ts →
    Written (.not e) (.not :: operand .negation e ts)
  | join (o : Operator) {l r : Expression} {ts us : List Token} : Written l ts → Written r us →
    Written (o.join l r) (operand o.rule l ts ++ o.token :: operand o.rule r us)

/-- An expression that can be written: its functions and the parts of its paths are names, and its
numbers are given by their digits. -/
inductive IsPrintable : Expression → Prop
  | boolean (b : Bool) : IsPrintable (.literal (.boolean b))
  | null : IsPrintable (.literal .null)
  | string (s : String) : IsPrintable (.literal (.string s))
  | number (n : Numeral) : IsPrintable (.literal (.number n.value))
  | path {head : String} {names : List String} : IsName head → (∀ name ∈ names, IsName name) →
    IsPrintable (.path head names)
  | call {name : String} {args : List Expression} : IsName name → (∀ a ∈ args, IsPrintable a) →
    IsPrintable (.call name args)
  | not {e : Expression} : IsPrintable e → IsPrintable (.not e)
  | join (o : Operator) {l r : Expression} : IsPrintable l → IsPrintable r →
    IsPrintable (o.join l r)

theorem exists_listed {es : List Expression} (h : ∀ e ∈ es, ∃ ts, Written e ts) :
    ∃ args : List (List Token × Expression), args.map Prod.snd = es ∧
      ∀ a ∈ args, Written a.2 a.1 := by
  induction es with
  | nil => exact ⟨[], rfl, nofun⟩
  | cons e es ih =>
    obtain ⟨⟨ts, hts⟩, hes⟩ := List.forall_mem_cons.mp h
    obtain ⟨args, rfl, hargs⟩ := ih hes
    exact ⟨(ts, e) :: args, rfl, List.forall_mem_cons.mpr ⟨hts, hargs⟩⟩

/-- Every printable expression can be written. -/
theorem IsPrintable.exists_written (h : e.IsPrintable) : ∃ ts, Written e ts := by
  induction h with
  | boolean b => exact ⟨_, .boolean b⟩
  | null => exact ⟨_, .null⟩
  | string s => exact ⟨_, .string .double s⟩
  | number n => exact ⟨_, .number n⟩
  | path hhead hnames => exact ⟨_, .path hhead hnames⟩
  | call hname _ ih =>
    obtain ⟨args, rfl, hargs⟩ := exists_listed ih
    exact ⟨_, .call hname hargs⟩
  | not _ ih =>
    obtain ⟨ts, hts⟩ := ih
    exact ⟨_, hts.not⟩
  | join o _ _ ihl ihr =>
    obtain ⟨ts, hts⟩ := ihl
    obtain ⟨us, hus⟩ := ihr
    exact ⟨_, .join o hts hus⟩

/-! ### What is written is derived -/

/-- The rule of which a rule is the only alternative without an operator. -/
def Rule.looser : Rule → Rule
  | primary => negation
  | negation => comparison
  | comparison => conjunction
  | conjunction | disjunction => disjunction

theorem Derives.looser (h : Derives r ts e) : Derives r.looser ts e := by
  cases r with
  | primary => exact h.negation
  | negation => exact h.comparison
  | comparison =>
    have hnone := h.conjunction (List.forall_mem_nil _)
    rwa [operands, List.flatMap_nil, List.append_nil] at hnone
  | conjunction =>
    have hnone := h.disjunction (List.forall_mem_nil _)
    rwa [operands, List.flatMap_nil, List.append_nil] at hnone
  | disjunction => exact h

/-- What a rule derives, the rules that bind less derive too. -/
theorem Derives.of_depth_le {r' : Rule} (h : Derives r ts e) (hle : r.depth ≤ r'.depth) :
    Derives r' ts e := by
  -- Between the two rules there is a chain of rules, each an alternative of the next.
  have hiterate : Rule.looser^[r'.depth - r.depth] r = r' := by
    cases r <;> cases r' <;> first | rfl | exact absurd hle (by decide)
  rw [← hiterate]
  clear hiterate hle
  induction r'.depth - r.depth generalizing r with
  | zero => exact h
  | succ k ih => exact ih h.looser

theorem Rule.depth_pos (r : Rule) : 1 ≤ r.depth := by
  cases r <;> decide

theorem Derives.toDisjunction (h : Derives r ts e) : Derives .disjunction ts e :=
  h.of_depth_le r.depth_le

/-- With parentheses where they are needed, an operand is derived by the rule for operands. -/
theorem Derives.operand (h : Derives e.rule ts e) (hr : outer.depth ≤ r.depth + 1) :
    Derives r (operand outer e ts) e := by
  rw [Expression.operand]
  split
  next =>
    -- What stands in parentheses is a primary expression, whatever it is.
    exact (Derives.parentheses h.toDisjunction).of_depth_le r.depth_pos
  next hlt => exact h.of_depth_le (by omega)

theorem Derives.or {l r : Expression} (hl : Derives .conjunction ts l)
    (hr : Derives .conjunction us r) : Derives .disjunction (ts ++ .or :: us) (.or l r) := by
  have hothers : ∀ o ∈ [(us, r)], Derives .conjunction o.1 o.2 := List.forall_mem_singleton.mpr hr
  simpa [operands] using hl.disjunction hothers

theorem Derives.and {l r : Expression} (hl : Derives .comparison ts l)
    (hr : Derives .comparison us r) : Derives .conjunction (ts ++ .and :: us) (.and l r) := by
  have hothers : ∀ o ∈ [(us, r)], Derives .comparison o.1 o.2 := List.forall_mem_singleton.mpr hr
  simpa [operands] using hl.conjunction hothers

theorem Derives.join (o : Operator) {l r : Expression} (hl : Derives l.rule ts l)
    (hr : Derives r.rule us r) : Derives (o.join l r).rule
      (Expression.operand o.rule l ts ++ o.token :: Expression.operand o.rule r us)
      (o.join l r) := by
  cases o with
  | or => exact .or (hl.operand (by decide)) (hr.operand (by decide))
  | and => exact .and (hl.operand (by decide)) (hr.operand (by decide))
  | equal => exact .equal (hl.operand (by decide)) (hr.operand (by decide))
  | notEqual => exact .notEqual (hl.operand (by decide)) (hr.operand (by decide))

/-- The grammar derives what is written. -/
theorem Written.derives (h : Written e ts) : Derives e.rule ts e := by
  induction h with
  | boolean b => cases b <;> exact .literal rfl
  | null => exact .literal rfl
  | string q s => exact .literal (by rw [literal?, q.unquote_enclosed])
  | number n => exact .literal (by rw [literal?, String.toList_ofList, n.ofText?_chars]; rfl)
  | path => exact .path
  | call _ _ ih => exact .call fun a ha => (ih a ha).toDisjunction
  | not _ ih => exact .not (ih.operand (by decide))
  | join o _ _ ihl ihr => exact ihl.join o ihr

/-! ### What is written needs no separators -/

/-- Tokens that can be written one right after the other, after `!` and before any operator. -/
structure Legible (ts : List Token) : Prop where
  isSpelled : ∀ t ∈ ts, t.IsSpelled
  isChain : ts.IsChain Token.MayTouch
  head : ∃ t ∈ ts.head?, t ≠ .equal
  last : ∀ t ∈ ts.getLast?, t ≠ .not

/-- The tokens that come after an operand. -/
def delimiters : List Token := [.closeParenthesis, .comma, .equal, .notEqual, .and, .or]

theorem isSpelled_of_mem_delimiters {d : Token} (hd : d ∈ delimiters) : d.IsSpelled := by
  simp only [delimiters, List.mem_cons, List.not_mem_nil, or_false] at hd
  obtain rfl | rfl | rfl | rfl | rfl | rfl := hd <;> trivial

/-- Only `!` goes on with a character that a delimiter begins with. -/
theorem mayTouch_delimiter {d : Token} (ht : t ≠ .not) (hd : d ∈ delimiters) : t.MayTouch d := by
  cases t with
  | not => exact absurd rfl ht
  | true | false | null | identifier =>
    have hword : ∀ d ∈ delimiters, ∀ c ∈ d.spelling.head?, isWordChar c = false := by decide
    exact hword d hd
  | number =>
    have hnumber : ∀ d ∈ delimiters, ∀ c ∈ d.spelling.head?,
        (Decimal.isDigit c || c = '.') = false := by decide
    exact hnumber d hd
  | _ => exact fun _ _ => rfl

/-- What begins with an equals sign is `==`. -/
theorem head?_spelling_ne (hspelled : t.IsSpelled) (ht : t ≠ .equal) :
    t.spelling.head? ≠ some '=' := by
  cases t with
  | equal => exact absurd rfl ht
  | identifier name =>
    obtain ⟨c, hc, hstart⟩ := hspelled.start
    rw [Token.spelling, hc]
    rintro ⟨⟩
    exact absurd hstart (by decide)
  | string literal =>
    obtain ⟨q, s, rfl⟩ := hspelled
    rw [Token.spelling, Quote.enclosed, String.toList_ofList, List.head?_cons]
    cases q <;> decide
  | number digits =>
    obtain ⟨n, rfl⟩ := hspelled
    obtain ⟨c, cs, hcs, hc⟩ := n.exists_magnitude_cons
    rw [Token.spelling, String.toList_ofList, Numeral.chars, hcs]
    split
    · rw [List.head?_cons]
      decide
    · rintro ⟨⟩
      exact absurd hc (by decide)
  | _ => decide

/-- No operator and no parenthesis goes on with anything but an equals sign. -/
theorem mayTouch_head {d : Token} (hd : d ∈ .not :: delimiters) (hspelled : t.IsSpelled)
    (ht : t ≠ .equal) : d.MayTouch t := by
  intro c hc
  have hne : c ≠ '=' := by
    rintro rfl
    exact head?_spelling_ne hspelled ht hc
  simp only [delimiters, List.mem_cons, List.not_mem_nil, or_false] at hd
  obtain rfl | rfl | rfl | rfl | rfl | rfl | rfl := hd
  · exact decide_eq_false hne
  all_goals rfl

namespace Legible

theorem singleton (hspelled : t.IsSpelled) (hhead : t ≠ .equal) (hlast : t ≠ .not) :
    Legible [t] where
  isSpelled := List.forall_mem_singleton.mpr hspelled
  isChain := List.isChain_singleton t
  head := ⟨t, rfl, hhead⟩
  last := by rintro _ ⟨⟩; exact hlast

theorem ne_nil (h : Legible ts) : ts ≠ [] := by
  rintro rfl
  obtain ⟨t, ht, -⟩ := h.head
  exact nomatch ht

/-- One more token before an expression. -/
theorem cons (h : Legible ts) (hspelled : t.IsSpelled) (hhead : t ≠ .equal)
    (htouch : ∀ t' ∈ ts.head?, t.MayTouch t') : Legible (t :: ts) where
  isSpelled := List.forall_mem_cons.mpr ⟨hspelled, h.isSpelled⟩
  isChain := List.isChain_cons.mpr ⟨htouch, h.isChain⟩
  head := ⟨t, rfl, hhead⟩
  last := by
    rw [List.getLast?_cons_of_ne_nil h.ne_nil]
    exact h.last

/-- The first token after an operator or a parenthesis. -/
theorem mayTouch {d : Token} (h : Legible ts) (hd : d ∈ .not :: delimiters) :
    ∀ t ∈ ts.head?, d.MayTouch t := by
  obtain ⟨t', ht', hhead⟩ := h.head
  intro t ht
  obtain rfl := Option.mem_unique ht' ht
  exact mayTouch_head hd (h.isSpelled _ (List.mem_of_mem_head? ht)) hhead

theorem head_append (h : Legible ts) (us : List Token) :
    ∃ t ∈ (ts ++ us).head?, t ≠ .equal := by
  rw [List.head?_append_of_ne_nil _ h.ne_nil]
  exact h.head

/-- The last token of an operand is not `!`, so it stops at a delimiter. -/
theorem isChain_append {d : Token} (h : Legible ts) (hd : d ∈ delimiters)
    (hright : (d :: us).IsChain Token.MayTouch) : (ts ++ d :: us).IsChain Token.MayTouch := by
  refine List.isChain_append.mpr ⟨h.isChain, hright, ?_⟩
  rintro t ht _ ⟨⟩
  exact mayTouch_delimiter (h.last t ht) hd

/-- Two operands with a delimiter between them. -/
theorem join {d : Token} (hts : Legible ts) (hd : d ∈ delimiters) (hus : Legible us) :
    Legible (ts ++ d :: us) where
  isSpelled := List.forall_mem_append.mpr ⟨hts.isSpelled,
    List.forall_mem_cons.mpr ⟨isSpelled_of_mem_delimiters hd, hus.isSpelled⟩⟩
  isChain := hts.isChain_append hd (List.isChain_cons.mpr
    ⟨hus.mayTouch (List.mem_cons_of_mem _ hd), hus.isChain⟩)
  head := hts.head_append _
  last := by
    rw [List.getLast?_append_cons, List.getLast?_cons_of_ne_nil hus.ne_nil]
    exact hus.last

/-- A last parenthesis. -/
theorem close (h : Legible ts) : Legible (ts ++ [.closeParenthesis]) where
  isSpelled := List.forall_mem_append.mpr ⟨h.isSpelled, List.forall_mem_singleton.mpr trivial⟩
  isChain := h.isChain_append (by decide) (List.isChain_singleton _)
  head := h.head_append _
  last := by
    rw [List.getLast?_concat]
    rintro _ ⟨⟩
    decide

theorem parenthesized (h : ts = [] ∨ Legible ts) : Legible (parenthesized ts) := by
  have hclose : Legible (ts ++ [.closeParenthesis]) := by
    obtain rfl | h := h
    · exact singleton trivial (by decide) (by decide)
    · exact h.close
  exact hclose.cons trivial (by decide) fun _ _ _ _ => rfl

theorem operand (h : Legible ts) : Legible (operand outer e ts) := by
  rw [Expression.operand]
  split
  · exact parenthesized (.inr h)
  · exact h

/-- Arguments with a comma between neighbours. -/
theorem listed {a : List Token × Expression} {args : List (List Token × Expression)}
    (ha : Legible a.1) (h : ∀ b ∈ args, Legible b.1) : Legible (listed (a :: args)) := by
  induction args generalizing a with
  | nil => exact listed_singleton a ▸ ha
  | cons b args ih =>
    rw [List.forall_mem_cons] at h
    exact listed_cons_cons a b args ▸ ha.join (by decide) (ih h.1 h.2)

/-- Names with a point between neighbours. -/
theorem path {names : List String} (hname : IsName name) (h : ∀ name ∈ names, IsName name) :
    Legible (.identifier name :: dotted names) := by
  induction names generalizing name with
  | nil => exact singleton hname nofun nofun
  | cons next names ih =>
    rw [List.forall_mem_cons] at h
    have hdot : Legible (.dot :: .identifier next :: dotted names) :=
      (ih h.1 h.2).cons trivial (by decide) fun _ _ _ _ => rfl
    refine hdot.cons hname nofun ?_
    rintro _ ⟨⟩ _ ⟨⟩
    rfl

end Legible

/-- What is written needs no separators. -/
theorem Written.legible (h : Written e ts) : Legible ts := by
  induction h with
  | boolean b => cases b <;> exact .singleton trivial (by decide) (by decide)
  | null => exact .singleton trivial (by decide) (by decide)
  | string q s => exact .singleton ⟨q, s, rfl⟩ nofun nofun
  | number n => exact .singleton ⟨n, rfl⟩ nofun nofun
  | path hhead hnames => exact .path hhead hnames
  | @call name args hname _ ih =>
    have hargs : listed args = [] ∨ Legible (listed args) := by
      cases args with
      | nil => exact .inl rfl
      | cons a args =>
        rw [List.forall_mem_cons] at ih
        exact .inr (.listed ih.1 ih.2)
    refine (Legible.parenthesized hargs).cons hname nofun ?_
    rintro _ ⟨⟩ _ ⟨⟩
    rfl
  | not _ ih => exact ih.operand.cons trivial (by decide) (ih.operand.mayTouch (by decide))
  | join o _ _ ihl ihr => exact ihl.operand.join (by cases o <;> decide) ihr.operand

/-! ### What is written is read -/

/-- Every printable expression can be written, and however it is written, with whatever separators
around its tokens, it is read as itself. -/
theorem parse_written (h : e.IsPrintable) : (∃ ts, Written e ts) ∧
    ∀ ts, Written e ts → ∀ source : String, Spaced ts source.toList →
      tokens source.toList = .ok ts ∧ parse source = .ok e := by
  refine ⟨h.exists_written, fun ts hwritten source hspaced => ?_⟩
  -- The tokens are found again as they need no separators, and the grammar leaves no choice what
  -- they stand for.
  have hlegible := hwritten.legible
  have htokens := tokens_of_spaced hspaced hlegible.isSpelled hlegible.isChain
  have hread : ofTokens ts = .ok e := ofTokens_eq_ok.mpr hwritten.derives.toDisjunction
  refine ⟨htokens, ?_⟩
  rw [parse_of_tokens htokens, hread]
  rfl

/-- One and a half below zero, as it is written. -/
def minusOneAndAHalf : Numeral where
  negative := true
  whole := ['1']
  places := ['5']
  whole_ne_nil := by decide
  isDigit_whole := by decide
  isDigit_places := by decide

/-- An alternative inside a conjunction, names that begin like other words, and a string of a
backslash and both quotes. -/
def intricate : Expression :=
  .and (.or (.not (.path "nullable" ["x1"])) (.literal (.boolean true)))
    (.equal (.literal (.string "\\'\""))
      (.call "f" [.literal (.number minusOneAndAHalf.value), .path "_" []]))

/-- The tokens of the expression, with its string in single quotes. -/
def intricateTokens : List Token :=
  [.openParenthesis, .not, .identifier "nullable", .dot, .identifier "x1", .or, .true,
    .closeParenthesis, .and, .string "'\\\\\\'\"'", .equal, .identifier "f", .openParenthesis,
    .number "-1.5", .comma, .identifier "_", .closeParenthesis]

theorem parse_written_intricate : intricate.IsPrintable ∧
    parse "(!nullable\n. x1||true) &&'\\\\\\'\"'==f(-1.5\t,_ )" = .ok intricate := by
  have hnullable : IsName "nullable" := ⟨⟨⟨'n', rfl, rfl⟩, by decide⟩, by decide⟩
  have hx1 : ∀ name ∈ ["x1"], IsName name :=
    List.forall_mem_singleton.mpr ⟨⟨⟨'x', rfl, rfl⟩, by decide⟩, by decide⟩
  have hf : IsName "f" := ⟨⟨⟨'f', rfl, rfl⟩, by decide⟩, by decide⟩
  have hblank : IsName "_" := ⟨⟨⟨'_', rfl, rfl⟩, by decide⟩, by decide⟩
  have hprintable : intricate.IsPrintable := by
    have hargs : ∀ a ∈ [.literal (.number minusOneAndAHalf.value), .path "_" []], IsPrintable a :=
      List.forall_mem_cons.mpr
        ⟨.number _, List.forall_mem_singleton.mpr (.path hblank nofun)⟩
    exact .join .and (.join .or (.not (.path hnullable hx1)) (.boolean true))
      (.join .equal (.string _) (.call hf hargs))
  have hwritten : Written intricate intricateTokens := by
    have hargs : ∀ a ∈ [([Token.number "-1.5"], .literal (.number minusOneAndAHalf.value)),
        ([Token.identifier "_"], .path "_" [])], Written a.2 a.1 :=
      List.forall_mem_cons.mpr
        ⟨.number minusOneAndAHalf, List.forall_mem_singleton.mpr (.path hblank nofun)⟩
    exact .join .and (.join .or (.not (.path hnullable hx1)) (.boolean true))
      (.join .equal (.string .single _) (.call hf hargs))
  have hspaced : Spaced intricateTokens
      "(!nullable\n. x1||true) &&'\\\\\\'\"'==f(-1.5\t,_ )".toList :=
    .cons [] nofun <| .cons [] nofun <| .cons [] nofun <| .cons ['\n'] (by decide) <|
    .cons [' '] (by decide) <| .cons [] nofun <| .cons [] nofun <| .cons [] nofun <|
    .cons [' '] (by decide) <| .cons [] nofun <| .cons [] nofun <| .cons [] nofun <|
    .cons [] nofun <| .cons [] nofun <| .cons ['\t'] (by decide) <| .cons [] nofun <|
    .cons [' '] (by decide) <| .nil [] nofun
  exact ⟨hprintable, ((parse_written hprintable).2 _ hwritten _ hspaced).2⟩

end Expression

end ContentTree
