import ContentTree.Expression.Grammar
import ContentTree.Proofs.Except
import Mathlib.Data.List.Basic

/-!
# The language of expressions

The grammar of expressions as a relation between tokens and expressions, and the reader of
expressions against it: what it reads is derived by the grammar, and whatever the grammar derives it
reads, as the only expression of these tokens. Its fuel never runs out.

## Main definitions

* `Rule`, `Derives`: the rules of the grammar, and what they derive.
* `Rule.read`: the function that reads by a rule.
* `Reads`: a rule derives the tokens up to a rest.
* `Rule.continuations`, `Accepts`: where a rule would read on, and that it reads some tokens
  whatever comes after them elsewhere.
* `Settled`: no larger amount of fuel makes a difference.

## Main results

* `reads_of_read`: whatever is read by a rule is derived by it.
* `accepts_of_derives`: whatever a rule derives it reads.
* `settled`: every amount of fuel that is enough gives the same.
* `ofTokens_iff_derives`: the tokens of an expression are those that the grammar derives.
-/

namespace ContentTree.Expression

/-! ### The grammar -/

/-- The rules of the grammar, from operators that bind least to those that bind most. -/
inductive Rule
  | disjunction
  | conjunction
  | comparison
  | negation
  | primary
deriving DecidableEq

/-- The value of a token that is a literal. -/
def literal? : Token → Option Value
  | .true => some (.boolean true)
  | .false => some (.boolean false)
  | .null => some .null
  | .string quoted => some (.string (unquote quoted))
  | .number digits => (Decimal.ofText? digits.toList).map .number
  | _ => none

/-- Further operands with an operator before each of them. -/
def operands (operator : Token) (others : List (List Token × Expression)) : List Token :=
  others.flatMap fun o => operator :: o.1

/-- Names of fields with a point before each of them. -/
def dotted (names : List String) : List Token :=
  names.flatMap fun name => [.dot, .identifier name]

/-- Arguments with a comma between neighbours. -/
def listed (args : List (List Token × Expression)) : List Token :=
  List.intercalate [.comma] (args.map Prod.fst)

/-- Some tokens are an expression by a rule. -/
inductive Derives : Rule → List Token → Expression → Prop
  | disjunction {ts e others} : Derives .conjunction ts e →
    (∀ o ∈ others, Derives .conjunction o.1 o.2) →
    Derives .disjunction (ts ++ operands .or others) (others.foldl (fun l o => .or l o.2) e)
  | conjunction {ts e others} : Derives .comparison ts e →
    (∀ o ∈ others, Derives .comparison o.1 o.2) →
    Derives .conjunction (ts ++ operands .and others) (others.foldl (fun l o => .and l o.2) e)
  | comparison {ts e} : Derives .negation ts e → Derives .comparison ts e
  | equal {ts us l r} : Derives .negation ts l → Derives .negation us r →
    Derives .comparison (ts ++ .equal :: us) (.equal l r)
  | notEqual {ts us l r} : Derives .negation ts l → Derives .negation us r →
    Derives .comparison (ts ++ .notEqual :: us) (.notEqual l r)
  | negation {ts e} : Derives .primary ts e → Derives .negation ts e
  | not {ts e} : Derives .negation ts e → Derives .negation (.not :: ts) (.not e)
  | literal {token v} : literal? token = some v → Derives .primary [token] (.literal v)
  | parentheses {ts e} : Derives .disjunction ts e →
    Derives .primary (.openParenthesis :: (ts ++ [.closeParenthesis])) e
  | call {name args} : (∀ a ∈ args, Derives .disjunction a.1 a.2) →
    Derives .primary
      (.identifier name :: .openParenthesis :: (listed args ++ [.closeParenthesis]))
      (.call name (args.map Prod.snd))
  | path {head names} : Derives .primary (.identifier head :: dotted names) (.path head names)

/-- The function that reads by a rule. -/
def Rule.read : Rule → Nat → List Token → Except Unexpected (Expression × List Token)
  | disjunction => Expression.disjunction
  | conjunction => Expression.conjunction
  | comparison => Expression.comparison
  | negation => Expression.negation
  | primary => Expression.primary

theorem listed_cons_cons (a b : List Token × Expression) (args : List (List Token × Expression)) :
    listed (a :: b :: args) = a.1 ++ .comma :: listed (b :: args) := by
  simp [listed]

theorem listed_singleton (a : List Token × Expression) : listed [a] = a.1 := by
  simp [listed]

/-! ### Chains of operands -/

section Operands

/-- Reads further operands with an operator before each of them, and joins them from the left. -/
def operandsAfter (read : Nat → List Token → Except Unexpected (Expression × List Token))
    (operator : Token) (join : Expression → Expression → Expression) :
    Nat → Expression → List Token → Except Unexpected (Expression × List Token)
  | fuel + 1, left, token :: rest =>
    if token = operator then do
      let (right, rest) ← read fuel rest
      operandsAfter read operator join fuel (join left right) rest
    else return (left, token :: rest)
  | _, left, rest => return (left, rest)

theorem disjunctionAfter_eq (fuel : Nat) (left : Expression) (ts : List Token) :
    disjunctionAfter fuel left ts = operandsAfter conjunction .or .or fuel left ts := by
  induction fuel generalizing left ts with
  | zero => cases ts <;> rfl
  | succ fuel ih =>
    cases ts with
    | nil => rfl
    | cons token ts =>
      cases token <;> first | rfl | simp only [disjunctionAfter, operandsAfter, ih, if_true]

theorem conjunctionAfter_eq (fuel : Nat) (left : Expression) (ts : List Token) :
    conjunctionAfter fuel left ts = operandsAfter comparison .and .and fuel left ts := by
  induction fuel generalizing left ts with
  | zero => cases ts <;> rfl
  | succ fuel ih =>
    cases ts with
    | nil => rfl
    | cons token ts =>
      cases token <;> first | rfl | simp only [conjunctionAfter, operandsAfter, ih, if_true]

end Operands

/-! ### What is read is derived -/

/-- A rule derives the tokens before the rest. -/
def Reads (r : Rule) (ts : List Token) (e : Expression) (rest : List Token) : Prop :=
  ∃ used, Derives r used e ∧ ts = used ++ rest

variable {ts rest : List Token} {e left : Expression} {es : List Expression} {fuel : Nat} {r : Rule}

theorem operandsAfter_reads {operator : Token} {join : Expression → Expression → Expression}
    (hr : ∀ f < fuel, ∀ {ts e rest}, r.read f ts = .ok (e, rest) → Reads r ts e rest)
    (h : operandsAfter r.read operator join fuel left ts = .ok (e, rest)) :
    ∃ others, (∀ o ∈ others, Derives r o.1 o.2) ∧ ts = operands operator others ++ rest ∧
      e = others.foldl (fun l o => join l o.2) left := by
  induction fuel generalizing left ts with
  | zero => cases ts <;> (cases h; exact ⟨[], by simp, rfl, rfl⟩)
  | succ fuel ih =>
    cases ts with
    | nil => cases h; exact ⟨[], by simp, rfl, rfl⟩
    | cons token ts =>
      rw [operandsAfter] at h
      split at h
      next heq =>
        obtain ⟨⟨right, ts'⟩, hright, hafter⟩ := bind_eq_ok.mp h
        obtain ⟨used, hused, rfl⟩ := hr fuel (Nat.lt_succ_self fuel) hright
        obtain ⟨others, hothers, rfl, rfl⟩ :=
          ih (fun f hf => hr f (Nat.lt_succ_of_lt hf)) hafter
        exact ⟨(used, right) :: others, List.forall_mem_cons.mpr ⟨hused, hothers⟩,
          by simp [operands, heq], rfl⟩
      next => cases h; exact ⟨[], by simp, rfl, rfl⟩

theorem arguments_reads
    (hr : ∀ f < fuel, ∀ {ts e rest}, Rule.disjunction.read f ts = .ok (e, rest) →
      Reads .disjunction ts e rest)
    (h : arguments fuel ts = .ok (es, rest)) :
    ∃ args, args ≠ [] ∧ (∀ a ∈ args, Derives .disjunction a.1 a.2) ∧
      ts = listed args ++ .closeParenthesis :: rest ∧ es = args.map Prod.snd := by
  induction fuel generalizing ts es with
  | zero => exact nomatch h
  | succ fuel ih =>
    rw [arguments] at h
    obtain ⟨⟨first, ts'⟩, hfirst, hothers⟩ := bind_eq_ok.mp h
    obtain ⟨used, hused, rfl⟩ := hr fuel (Nat.lt_succ_self fuel) hfirst
    dsimp only at hothers
    split at hothers
    next =>
      obtain ⟨⟨others, _⟩, hrest, hdone⟩ := bind_eq_ok.mp hothers
      cases hdone
      obtain ⟨args, hne, hargs, rfl, rfl⟩ := ih (fun f hf => hr f (Nat.lt_succ_of_lt hf)) hrest
      cases args with
      | nil => exact absurd rfl hne
      | cons b args =>
        exact ⟨(used, first) :: b :: args, by simp, List.forall_mem_cons.mpr ⟨hused, hargs⟩,
          by simp [listed_cons_cons], rfl⟩
    next =>
      cases hothers
      exact ⟨[(used, first)], by simp, by simpa using hused, by simp [listed_singleton], rfl⟩
    next => exact nomatch hothers

theorem eq_dotted_of_fields {names : List String} (h : fields ts = .ok (names, rest)) :
    ts = dotted names ++ rest := by
  fun_induction fields ts generalizing names rest with
  | case1 name ts ih =>
    obtain ⟨⟨names', ts'⟩, hfields, hdone⟩ := bind_eq_ok.mp h
    cases hdone
    rw [ih hfields]
    rfl
  | case2 => exact nomatch h
  | case3 => cases h; rfl

theorem primary_reads
    (hr : ∀ f < fuel, ∀ {ts e rest}, Rule.disjunction.read f ts = .ok (e, rest) →
      Reads .disjunction ts e rest)
    (h : primary fuel ts = .ok (e, rest)) : Reads .primary ts e rest := by
  unfold primary at h
  split at h
  case h_1 fuel ts =>
    obtain ⟨⟨inner, ts'⟩, hinner, hclose⟩ := bind_eq_ok.mp h
    obtain ⟨used, hused, rfl⟩ := hr fuel (Nat.lt_succ_self fuel) hinner
    dsimp only at hclose
    split at hclose
    next => cases hclose; exact ⟨_, .parentheses hused, by simp⟩
    next => exact nomatch hclose
  case h_2 fuel name ts =>
    split at h
    next => cases h; exact ⟨_, @Derives.call name [] (by simp), by simp [listed]⟩
    next =>
      obtain ⟨⟨es, ts'⟩, hargs, hdone⟩ := bind_eq_ok.mp h
      cases hdone
      obtain ⟨args, -, hderived, rfl, rfl⟩ :=
        arguments_reads (fun f hf => hr f (Nat.lt_succ_of_lt hf)) hargs
      exact ⟨_, .call hderived, by simp⟩
  case h_3 =>
    obtain ⟨⟨names, ts'⟩, hfields, hdone⟩ := bind_eq_ok.mp h
    cases hdone
    rw [eq_dotted_of_fields hfields]
    exact ⟨_, .path, rfl⟩
  case h_8 =>
    split at h
    next hx => cases h; exact ⟨_, .literal (by rw [literal?, hx]; rfl), rfl⟩
    next => exact nomatch h
  case h_9 => exact nomatch h
  all_goals
    cases h
    exact ⟨_, .literal rfl, rfl⟩

theorem comparison_reads
    (hr : ∀ f < fuel, ∀ {ts e rest}, Rule.negation.read f ts = .ok (e, rest) →
      Reads .negation ts e rest)
    (h : comparison fuel ts = .ok (e, rest)) : Reads .comparison ts e rest := by
  cases fuel with
  | zero => exact nomatch h
  | succ fuel =>
    rw [comparison] at h
    obtain ⟨⟨left, ts'⟩, hleft, hright⟩ := bind_eq_ok.mp h
    obtain ⟨used, hused, rfl⟩ := hr fuel (Nat.lt_succ_self fuel) hleft
    dsimp only at hright
    split at hright
    next =>
      obtain ⟨⟨right, _⟩, hread, hdone⟩ := bind_eq_ok.mp hright
      cases hdone
      obtain ⟨used', hused', rfl⟩ := hr fuel (Nat.lt_succ_self fuel) hread
      exact ⟨_, .equal hused hused', by simp⟩
    next =>
      obtain ⟨⟨right, _⟩, hread, hdone⟩ := bind_eq_ok.mp hright
      cases hdone
      obtain ⟨used', hused', rfl⟩ := hr fuel (Nat.lt_succ_self fuel) hread
      exact ⟨_, .notEqual hused hused', by simp⟩
    next => cases hright; exact ⟨_, .comparison hused, rfl⟩

/-- Whatever is read by a rule is derived by it. -/
theorem reads_of_read (h : r.read fuel ts = .ok (e, rest)) : Reads r ts e rest := by
  induction fuel using Nat.strongRecOn generalizing r ts e rest with
  | ind fuel ih =>
    cases r with
    | disjunction =>
      cases fuel with
      | zero => exact nomatch h
      | succ fuel =>
        rw [Rule.read, disjunction] at h
        obtain ⟨⟨first, ts'⟩, hfirst, hothers⟩ := bind_eq_ok.mp h
        obtain ⟨used, hused, rfl⟩ : Reads .conjunction ts first ts' :=
          ih fuel (Nat.lt_succ_self fuel) hfirst
        dsimp only at hothers
        rw [disjunctionAfter_eq] at hothers
        obtain ⟨others, hderived, rfl, rfl⟩ := operandsAfter_reads (r := .conjunction)
          (fun f hf => ih f (Nat.lt_succ_of_lt hf)) hothers
        exact ⟨_, .disjunction hused hderived, (List.append_assoc ..).symm⟩
    | conjunction =>
      cases fuel with
      | zero => exact nomatch h
      | succ fuel =>
        rw [Rule.read, conjunction] at h
        obtain ⟨⟨first, ts'⟩, hfirst, hothers⟩ := bind_eq_ok.mp h
        obtain ⟨used, hused, rfl⟩ : Reads .comparison ts first ts' :=
          ih fuel (Nat.lt_succ_self fuel) hfirst
        dsimp only at hothers
        rw [conjunctionAfter_eq] at hothers
        obtain ⟨others, hderived, rfl, rfl⟩ := operandsAfter_reads (r := .comparison)
          (fun f hf => ih f (Nat.lt_succ_of_lt hf)) hothers
        exact ⟨_, .conjunction hused hderived, (List.append_assoc ..).symm⟩
    | comparison => exact comparison_reads (fun f hf => ih f hf) h
    | negation =>
      rw [Rule.read] at h
      unfold negation at h
      split at h
      next => exact nomatch h
      next fuel ts =>
        obtain ⟨⟨inner, ts'⟩, hinner, hdone⟩ := bind_eq_ok.mp h
        cases hdone
        obtain ⟨used, hused, rfl⟩ : Reads .negation ts inner rest :=
          ih fuel (Nat.lt_succ_self fuel) hinner
        exact ⟨_, .not hused, rfl⟩
      next =>
        obtain ⟨used, hused, rfl⟩ : Reads .primary _ e rest := ih _ (Nat.lt_succ_self _) h
        exact ⟨_, .negation hused, rfl⟩
    | primary => exact primary_reads (fun f hf => ih f hf) h

/-! ### What is derived is read -/

/-- How many rules a rule goes through before it reads a token, itself included. -/
def Rule.depth : Rule → Nat
  | primary => 1
  | negation => 2
  | comparison => 3
  | conjunction => 4
  | disjunction => 5

theorem Rule.depth_le (r : Rule) : r.depth ≤ 5 := by
  cases r <;> decide

/-- The tokens at which a rule would read on. -/
def Rule.continuations : Rule → List Token
  | primary | negation => [.dot, .openParenthesis]
  | comparison => [.equal, .notEqual, .dot, .openParenthesis]
  | conjunction => [.and, .equal, .notEqual, .dot, .openParenthesis]
  | disjunction => [.or, .and, .equal, .notEqual, .dot, .openParenthesis]

/-- A rule does not read on into the rest. -/
def Rule.Stops (r : Rule) (rest : List Token) : Prop :=
  ∀ token ∈ rest.head?, token ∉ r.continuations

/-- A rule reads the tokens, whatever comes after them where it stops. -/
def Accepts (r : Rule) (ts : List Token) (e : Expression) : Prop :=
  ∀ fuel rest, r.Stops rest → 6 * (ts ++ rest).length + r.depth ≤ fuel →
    r.read fuel (ts ++ rest) = .ok (e, rest)

theorem Rule.stops_nil (r : Rule) : r.Stops [] := nofun

theorem Rule.stops_cons {token : Token} (h : token ∉ r.continuations) : r.Stops (token :: rest) :=
  fun _ ht => Option.some.inj ht ▸ h

theorem Rule.Stops.of_subset {r' : Rule} (h : r.Stops rest)
    (hsub : r'.continuations ⊆ r.continuations) : r'.Stops rest :=
  fun token ht ht' => h token ht (hsub ht')

theorem Rule.Stops.ne {token token' : Token} (h : r.Stops rest) (ht : token ∈ rest.head?)
    (ht' : token' ∈ r.continuations) : token ≠ token' :=
  fun heq => h token ht (heq ▸ ht')

/-- What is derived begins with a token that closes nothing, and no primary expression begins with
an operator. -/
theorem Derives.exists_cons (h : Derives r ts e) :
    ∃ token us, ts = token :: us ∧ token ≠ .closeParenthesis ∧ (r = .primary → token ≠ .not) := by
  induction h with
  | disjunction _ _ ih | conjunction _ _ ih | equal _ _ ih | notEqual _ _ ih =>
    obtain ⟨token, us, rfl, hclose, -⟩ := ih
    exact ⟨token, _, rfl, hclose, nofun⟩
  | comparison _ ih | negation _ ih =>
    obtain ⟨token, us, rfl, hclose, -⟩ := ih
    exact ⟨token, us, rfl, hclose, nofun⟩
  | not => exact ⟨_, _, rfl, nofun, nofun⟩
  | literal hv => exact ⟨_, _, rfl, (by rintro rfl; cases hv), by rintro - rfl; cases hv⟩
  | parentheses | call | path => exact ⟨_, _, rfl, nofun, nofun⟩

theorem Derives.length_pos (h : Derives r ts e) : 0 < ts.length := by
  obtain ⟨token, us, rfl, -⟩ := h.exists_cons
  exact Nat.succ_pos _

theorem fields_dotted_append (names : List String) (h : ∀ token ∈ rest.head?, token ≠ .dot) :
    fields (dotted names ++ rest) = .ok (names, rest) := by
  induction names with
  | nil =>
    cases rest with
    | nil => rfl
    | cons token rest => cases token <;> first | rfl | exact absurd rfl (h _ rfl)
  | cons name names ih =>
    change fields (.dot :: .identifier name :: (dotted names ++ rest)) = _
    rw [fields, ih]
    rfl

theorem primary_literal {token : Token} {v : Value} (h : literal? token = some v) :
    primary (fuel + 1) (token :: rest) = .ok (.literal v, rest) := by
  cases token with
  | number digits =>
    obtain ⟨x, hx, rfl⟩ := Option.map_eq_some_iff.mp h
    rw [primary, hx]
    rfl
  | true | false | null | string => cases h; rfl
  | _ => cases h

theorem primary_path (name : String) (h : ∀ token ∈ ts.head?, token ≠ .openParenthesis) :
    primary (fuel + 1) (.identifier name :: ts) =
      (do let (names, rest) ← fields ts; return (.path name names, rest)) := by
  cases ts with
  | nil => rfl
  | cons token ts => cases token <;> first | rfl | exact absurd rfl (h _ rfl)

theorem primary_call (name : String) (h : ∀ token ∈ ts.head?, token ≠ .closeParenthesis) :
    primary (fuel + 1) (.identifier name :: .openParenthesis :: ts) =
      (do let (args, rest) ← arguments fuel ts; return (.call name args, rest)) := by
  cases ts with
  | nil => rfl
  | cons token ts => cases token <;> first | rfl | exact absurd rfl (h _ rfl)

theorem negation_cons_of_ne {token : Token} (h : token ≠ .not) :
    negation (fuel + 1) (token :: ts) = primary fuel (token :: ts) := by
  cases token <;> first | rfl | exact absurd rfl h

theorem operandsAfter_append {operator : Token} {join : Expression → Expression → Expression}
    {others : List (List Token × Expression)} (hr : ∀ o ∈ others, Accepts r o.1 o.2)
    (hoperator : operator ∉ r.continuations) (hstops : r.Stops rest)
    (hrest : ∀ token ∈ rest.head?, token ≠ operator)
    (hfuel : 6 * (operands operator others ++ rest).length ≤ fuel) :
    operandsAfter r.read operator join fuel left (operands operator others ++ rest) =
      .ok (others.foldl (fun l o => join l o.2) left, rest) := by
  induction others generalizing fuel left with
  | nil =>
    cases rest with
    | nil => cases fuel <;> rfl
    | cons token rest =>
      cases fuel with
      | zero => rfl
      | succ fuel => exact if_neg (hrest token rfl)
  | cons o others ih =>
    obtain ⟨ho, hothers⟩ := List.forall_mem_cons.mp hr
    have heq : operands operator (o :: others) ++ rest =
        operator :: (o.1 ++ (operands operator others ++ rest)) := by simp [operands]
    rw [heq] at hfuel ⊢
    have hnext : r.Stops (operands operator others ++ rest) := by
      cases others with
      | nil => exact hstops
      | cons => exact Rule.stops_cons hoperator
    have hdepth := r.depth_le
    simp only [List.length_cons] at hfuel
    obtain ⟨fuel, rfl⟩ : ∃ f, fuel = f + 1 := ⟨fuel - 1, by omega⟩
    rw [operandsAfter, if_pos rfl, ho fuel _ hnext (by omega)]
    exact ih hothers (by simp only [List.length_append] at hfuel ⊢; omega)

theorem arguments_append {args : List (List Token × Expression)} (hne : args ≠ [])
    (hr : ∀ a ∈ args, Accepts .disjunction a.1 a.2)
    (hfuel : 6 * (listed args ++ .closeParenthesis :: rest).length + 6 ≤ fuel) :
    arguments fuel (listed args ++ .closeParenthesis :: rest) =
      .ok (args.map Prod.snd, rest) := by
  induction args generalizing fuel with
  | nil => exact absurd rfl hne
  | cons a args ih =>
    obtain ⟨ha, hargs⟩ := List.forall_mem_cons.mp hr
    obtain ⟨fuel, rfl⟩ : ∃ f, fuel = f + 1 := ⟨fuel - 1, by omega⟩
    rw [arguments]
    cases args with
    | nil =>
      rw [listed_singleton] at hfuel ⊢
      have hread : disjunction fuel (a.1 ++ .closeParenthesis :: rest) = _ :=
        ha fuel _ (Rule.stops_cons (by decide)) (by simp only [Rule.depth]; omega)
      rw [hread]
      rfl
    | cons b args =>
      rw [listed_cons_cons, List.append_assoc, List.cons_append] at hfuel ⊢
      have hread : disjunction fuel
          (a.1 ++ .comma :: (listed (b :: args) ++ .closeParenthesis :: rest)) = _ :=
        ha fuel _ (Rule.stops_cons (by decide)) (by simp only [Rule.depth]; omega)
      rw [hread]
      dsimp only [bind, Except.bind]
      rw [ih (by simp) hargs
        (by simp only [List.length_append, List.length_cons] at hfuel ⊢; omega)]
      rfl

section Accepts

variable {us : List Token} {right : Expression} {others : List (List Token × Expression)}

/-- An operand and those after it, with an operator before each of them. -/
theorem operands_append {operator : Token} {join : Expression → Expression → Expression}
    (h : Accepts r ts e) (hothers : ∀ o ∈ others, Accepts r o.1 o.2)
    (hoperator : operator ∉ r.continuations) (hstops : r.Stops rest)
    (hrest : ∀ token ∈ rest.head?, token ≠ operator)
    (hfuel : 6 * (ts ++ (operands operator others ++ rest)).length + r.depth ≤ fuel) :
    (do let (left, rest) ← r.read fuel (ts ++ (operands operator others ++ rest))
        operandsAfter r.read operator join fuel left rest) =
      .ok (others.foldl (fun l o => join l o.2) e, rest) := by
  have hnext : r.Stops (operands operator others ++ rest) := by
    cases others with
    | nil => exact hstops
    | cons => exact Rule.stops_cons hoperator
  rw [h fuel _ hnext hfuel]
  exact operandsAfter_append hothers hoperator hstops hrest
    (by simp only [List.length_append] at hfuel ⊢; omega)

theorem accepts_disjunction (h : Accepts .conjunction ts e)
    (hothers : ∀ o ∈ others, Accepts .conjunction o.1 o.2) :
    Accepts .disjunction (ts ++ operands .or others)
      (others.foldl (fun l o => .or l o.2) e) := by
  intro fuel rest hstops hfuel
  simp only [Rule.depth, List.append_assoc] at hfuel ⊢
  obtain ⟨fuel, rfl⟩ : ∃ f, fuel = f + 1 := ⟨fuel - 1, by omega⟩
  rw [Rule.read, disjunction]
  simp only [disjunctionAfter_eq]
  exact operands_append h hothers (by decide) (hstops.of_subset (by decide))
    (fun _ ht => hstops.ne ht (by decide)) (by simp only [Rule.depth]; omega)

theorem accepts_conjunction (h : Accepts .comparison ts e)
    (hothers : ∀ o ∈ others, Accepts .comparison o.1 o.2) :
    Accepts .conjunction (ts ++ operands .and others)
      (others.foldl (fun l o => .and l o.2) e) := by
  intro fuel rest hstops hfuel
  simp only [Rule.depth, List.append_assoc] at hfuel ⊢
  obtain ⟨fuel, rfl⟩ : ∃ f, fuel = f + 1 := ⟨fuel - 1, by omega⟩
  rw [Rule.read, conjunction]
  simp only [conjunctionAfter_eq]
  exact operands_append h hothers (by decide) (hstops.of_subset (by decide))
    (fun _ ht => hstops.ne ht (by decide)) (by simp only [Rule.depth]; omega)

theorem accepts_comparison (h : Accepts .negation ts e) : Accepts .comparison ts e := by
  intro fuel rest hstops hfuel
  simp only [Rule.depth] at hfuel
  obtain ⟨fuel, rfl⟩ : ∃ f, fuel = f + 1 := ⟨fuel - 1, by omega⟩
  have hread : negation fuel (ts ++ rest) = _ :=
    h fuel rest (hstops.of_subset (by decide)) (by simp only [Rule.depth]; omega)
  rw [Rule.read, comparison, hread]
  cases rest with
  | nil => rfl
  | cons token rest =>
    cases token with
    | equal | notEqual => exact absurd rfl (hstops.ne rfl (by decide))
    | _ => rfl

theorem accepts_equality {operator : Token} {join : Expression → Expression → Expression}
    (hop : operator = .equal ∧ join = .equal ∨ operator = .notEqual ∧ join = .notEqual)
    (h : Accepts .negation ts left) (h' : Accepts .negation us right) :
    Accepts .comparison (ts ++ operator :: us) (join left right) := by
  intro fuel rest hstops hfuel
  simp only [Rule.depth, List.append_assoc, List.cons_append] at hfuel ⊢
  obtain ⟨fuel, rfl⟩ : ∃ f, fuel = f + 1 := ⟨fuel - 1, by omega⟩
  have hoperator : operator ∉ Rule.negation.continuations := by
    obtain ⟨rfl, -⟩ | ⟨rfl, -⟩ := hop <;> decide
  have hleft : negation fuel (ts ++ operator :: (us ++ rest)) = _ :=
    h fuel _ (Rule.stops_cons hoperator) (by simp only [Rule.depth]; omega)
  have hright : negation fuel (us ++ rest) = _ :=
    h' fuel rest (hstops.of_subset (by decide))
      (by simp only [List.length_append, List.length_cons, Rule.depth] at hfuel ⊢; omega)
  rw [Rule.read, comparison, hleft]
  obtain ⟨rfl, rfl⟩ | ⟨rfl, rfl⟩ := hop
  all_goals
    dsimp only [bind, Except.bind]
    rw [hright]
    rfl

theorem accepts_negation {token : Token} (hnot : token ≠ .not)
    (h : Accepts .primary (token :: us) e) : Accepts .negation (token :: us) e := by
  intro fuel rest hstops hfuel
  simp only [Rule.depth] at hfuel
  obtain ⟨fuel, rfl⟩ : ∃ f, fuel = f + 1 := ⟨fuel - 1, by omega⟩
  rw [Rule.read, List.cons_append, negation_cons_of_ne hnot]
  exact h fuel rest hstops (by simp only [Rule.depth]; omega)

theorem accepts_not (h : Accepts .negation ts e) : Accepts .negation (.not :: ts) (.not e) := by
  intro fuel rest hstops hfuel
  simp only [Rule.depth, List.cons_append, List.length_cons] at hfuel ⊢
  obtain ⟨fuel, rfl⟩ : ∃ f, fuel = f + 1 := ⟨fuel - 1, by omega⟩
  have hread : negation fuel (ts ++ rest) = _ :=
    h fuel rest hstops (by simp only [Rule.depth]; omega)
  rw [Rule.read, negation, hread]
  rfl

theorem accepts_parentheses (h : Accepts .disjunction ts e) :
    Accepts .primary (.openParenthesis :: (ts ++ [.closeParenthesis])) e := by
  intro fuel rest _ hfuel
  simp only [Rule.depth, List.cons_append, List.append_assoc, List.nil_append,
    List.length_cons] at hfuel ⊢
  obtain ⟨fuel, rfl⟩ : ∃ f, fuel = f + 1 := ⟨fuel - 1, by omega⟩
  have hread : disjunction fuel (ts ++ .closeParenthesis :: rest) = _ :=
    h fuel _ (Rule.stops_cons (by decide)) (by simp only [Rule.depth]; omega)
  rw [Rule.read, primary, hread]
  rfl

theorem accepts_call {name : String} {args : List (List Token × Expression)}
    (hargs : ∀ a ∈ args, Derives .disjunction a.1 a.2)
    (hread : ∀ a ∈ args, Accepts .disjunction a.1 a.2) :
    Accepts .primary (.identifier name :: .openParenthesis :: (listed args ++ [.closeParenthesis]))
      (.call name (args.map Prod.snd)) := by
  intro fuel rest _ hfuel
  simp only [Rule.depth, List.cons_append, List.append_assoc, List.nil_append,
    List.length_cons] at hfuel ⊢
  obtain ⟨fuel, rfl⟩ : ∃ f, fuel = f + 1 := ⟨fuel - 1, by omega⟩
  rw [Rule.read]
  cases args with
  | nil => rfl
  | cons a args =>
    have hfirst : ∀ token ∈ (listed (a :: args) ++ .closeParenthesis :: rest).head?,
        token ≠ .closeParenthesis := by
      obtain ⟨token, us, heq, hclose, -⟩ := (hargs a (List.mem_cons_self ..)).exists_cons
      cases args with
      | nil => rw [listed_singleton, heq]; rintro _ ⟨⟩; exact hclose
      | cons b args => rw [listed_cons_cons, heq]; rintro _ ⟨⟩; exact hclose
    rw [primary_call name hfirst, arguments_append (by simp) hread (by omega)]
    rfl

theorem accepts_path {head : String} {names : List String} :
    Accepts .primary (.identifier head :: dotted names) (.path head names) := by
  intro fuel rest hstops hfuel
  simp only [Rule.depth, List.cons_append] at hfuel ⊢
  obtain ⟨fuel, rfl⟩ : ∃ f, fuel = f + 1 := ⟨fuel - 1, by omega⟩
  have hhead : ∀ token ∈ (dotted names ++ rest).head?, token ≠ .openParenthesis := by
    cases names with
    | nil => exact fun _ ht => hstops.ne ht (by decide)
    | cons => rintro _ ⟨⟩; exact nofun
  rw [Rule.read, primary_path head hhead,
    fields_dotted_append names fun _ ht => hstops.ne ht (by decide)]
  rfl

end Accepts

/-- What a rule derives it reads, up to where it stops. -/
theorem accepts_of_derives (h : Derives r ts e) : Accepts r ts e := by
  induction h with
  | disjunction _ _ ih ihs => exact accepts_disjunction ih ihs
  | conjunction _ _ ih ihs => exact accepts_conjunction ih ihs
  | comparison _ ih => exact accepts_comparison ih
  | equal _ _ ih ih' => exact accepts_equality (.inl ⟨rfl, rfl⟩) ih ih'
  | notEqual _ _ ih ih' => exact accepts_equality (.inr ⟨rfl, rfl⟩) ih ih'
  | negation h ih =>
    obtain ⟨token, us, rfl, -, hnot⟩ := h.exists_cons
    exact accepts_negation (hnot rfl) ih
  | not _ ih => exact accepts_not ih
  | literal hv =>
    intro fuel rest _ hfuel
    obtain ⟨fuel, rfl⟩ : ∃ f, fuel = f + 1 := ⟨fuel - 1, by simp only [Rule.depth] at hfuel; omega⟩
    exact primary_literal hv
  | parentheses _ ih => exact accepts_parentheses ih
  | call h ih => exact accepts_call h ih
  | path => exact accepts_path

/-! ### Fuel -/

theorem length_lt_of_read (h : r.read fuel ts = .ok (e, rest)) : rest.length < ts.length := by
  obtain ⟨used, hused, rfl⟩ := reads_of_read h
  simpa using hused.length_pos

section Fuel

variable {fuel' : Nat}

/-- No amount of fuel that is enough for a rule gives another result than the given one. -/
def Settled (r : Rule) (fuel : Nat) : Prop :=
  ∀ fuel' ts, 6 * ts.length + r.depth ≤ fuel → 6 * ts.length + r.depth ≤ fuel' →
    r.read fuel ts = r.read fuel' ts

theorem operandsAfter_congr {operator : Token} {join : Expression → Expression → Expression}
    (hr : ∀ f < fuel, Settled r f) (h : 6 * ts.length ≤ fuel) (h' : 6 * ts.length ≤ fuel') :
    operandsAfter r.read operator join fuel left ts =
      operandsAfter r.read operator join fuel' left ts := by
  induction fuel generalizing fuel' left ts with
  | zero =>
    obtain rfl : ts = [] := List.eq_nil_of_length_eq_zero (by omega)
    cases fuel' <;> rfl
  | succ fuel ih =>
    cases ts with
    | nil => cases fuel' <;> rfl
    | cons token ts =>
      have hdepth := r.depth_le
      rw [List.length_cons] at h h'
      obtain ⟨fuel', rfl⟩ : ∃ f, fuel' = f + 1 := ⟨fuel' - 1, by omega⟩
      rw [operandsAfter, operandsAfter]
      split
      next =>
        refine bind_congr_of_eq_ok (hr fuel (Nat.lt_succ_self fuel) _ _ (by omega) (by omega)) ?_
        rintro ⟨right, rest⟩ hright
        have hlt := length_lt_of_read hright
        exact ih (fun f hf => hr f (Nat.lt_succ_of_lt hf)) (by omega) (by omega)
      next => rfl

theorem operands_congr {operator : Token} {join : Expression → Expression → Expression}
    (hr : ∀ f ≤ fuel, Settled r f) (h : 6 * ts.length + r.depth ≤ fuel)
    (h' : 6 * ts.length + r.depth ≤ fuel') :
    (do let (left, rest) ← r.read fuel ts
        operandsAfter r.read operator join fuel left rest) =
      (do let (left, rest) ← r.read fuel' ts
          operandsAfter r.read operator join fuel' left rest) := by
  refine bind_congr_of_eq_ok (hr fuel (Nat.le_refl fuel) _ _ h h') ?_
  rintro ⟨first, rest⟩ hfirst
  have hlt := length_lt_of_read hfirst
  exact operandsAfter_congr (fun f hf => hr f (Nat.le_of_lt hf)) (by omega) (by omega)

theorem arguments_congr (hr : ∀ f < fuel, Settled .disjunction f)
    (h : 6 * ts.length + 6 ≤ fuel) (h' : 6 * ts.length + 6 ≤ fuel') :
    arguments fuel ts = arguments fuel' ts := by
  induction fuel generalizing fuel' ts with
  | zero => omega
  | succ fuel ih =>
    obtain ⟨fuel', rfl⟩ : ∃ f, fuel' = f + 1 := ⟨fuel' - 1, by omega⟩
    rw [arguments, arguments]
    refine bind_congr_of_eq_ok (hr fuel (Nat.lt_succ_self fuel) _ _
      (by rw [Rule.depth]; omega) (by rw [Rule.depth]; omega)) ?_
    rintro ⟨first, rest⟩ hfirst
    have hlt : rest.length < ts.length := length_lt_of_read (r := .disjunction) hfirst
    cases rest with
    | nil => rfl
    | cons token rest =>
      cases token with
      | comma =>
        rw [List.length_cons] at hlt
        refine bind_congr_of_eq_ok ?_ fun _ _ => rfl
        exact ih (fun f hf => hr f (Nat.lt_succ_of_lt hf)) (by omega) (by omega)
      | _ => rfl

theorem settled_disjunction (hr : ∀ f ≤ fuel, Settled .conjunction f) :
    Settled .disjunction (fuel + 1) := by
  intro fuel' ts h h'
  rw [Rule.depth] at h h'
  obtain ⟨fuel', rfl⟩ : ∃ f, fuel' = f + 1 := ⟨fuel' - 1, by omega⟩
  rw [Rule.read, disjunction, disjunction]
  simp only [disjunctionAfter_eq]
  exact operands_congr hr (by rw [Rule.depth]; omega) (by rw [Rule.depth]; omega)

theorem settled_conjunction (hr : ∀ f ≤ fuel, Settled .comparison f) :
    Settled .conjunction (fuel + 1) := by
  intro fuel' ts h h'
  rw [Rule.depth] at h h'
  obtain ⟨fuel', rfl⟩ : ∃ f, fuel' = f + 1 := ⟨fuel' - 1, by omega⟩
  rw [Rule.read, conjunction, conjunction]
  simp only [conjunctionAfter_eq]
  exact operands_congr hr (by rw [Rule.depth]; omega) (by rw [Rule.depth]; omega)

theorem settled_comparison (hr : Settled .negation fuel) : Settled .comparison (fuel + 1) := by
  intro fuel' ts h h'
  rw [Rule.depth] at h h'
  obtain ⟨fuel', rfl⟩ : ∃ f, fuel' = f + 1 := ⟨fuel' - 1, by omega⟩
  rw [Rule.read, comparison, comparison]
  refine bind_congr_of_eq_ok (hr _ _ (by rw [Rule.depth]; omega) (by rw [Rule.depth]; omega)) ?_
  rintro ⟨left, rest⟩ hleft
  have hlt : rest.length < ts.length := length_lt_of_read (r := .negation) hleft
  cases rest with
  | nil => rfl
  | cons token rest =>
    rw [List.length_cons] at hlt
    cases token with
    | equal | notEqual =>
      refine bind_congr_of_eq_ok ?_ fun _ _ => rfl
      exact hr _ _ (by rw [Rule.depth]; omega) (by rw [Rule.depth]; omega)
    | _ => rfl

theorem settled_negation (hr : Settled .negation fuel) (hprimary : Settled .primary fuel) :
    Settled .negation (fuel + 1) := by
  intro fuel' ts h h'
  rw [Rule.depth] at h h'
  obtain ⟨fuel', rfl⟩ : ∃ f, fuel' = f + 1 := ⟨fuel' - 1, by omega⟩
  have hp : primary fuel ts = primary fuel' ts :=
    hprimary _ _ (by rw [Rule.depth]; omega) (by rw [Rule.depth]; omega)
  cases ts with
  | nil => exact hp
  | cons token ts =>
    cases token with
    | not =>
      rw [List.length_cons] at h h'
      rw [Rule.read, negation, negation]
      refine bind_congr_of_eq_ok ?_ fun _ _ => rfl
      exact hr _ _ (by rw [Rule.depth]; omega) (by rw [Rule.depth]; omega)
    | _ => exact hp

theorem settled_primary (hr : ∀ f ≤ fuel, Settled .disjunction f) :
    Settled .primary (fuel + 1) := by
  intro fuel' ts h h'
  rw [Rule.depth] at h h'
  obtain ⟨fuel', rfl⟩ : ∃ f, fuel' = f + 1 := ⟨fuel' - 1, by omega⟩
  cases ts with
  | nil => rfl
  | cons token ts =>
    rw [List.length_cons] at h h'
    cases token with
    | openParenthesis =>
      rw [Rule.read, primary, primary]
      refine bind_congr_of_eq_ok ?_ fun _ _ => rfl
      exact hr fuel (Nat.le_refl fuel) _ _ (by rw [Rule.depth]; omega) (by rw [Rule.depth]; omega)
    | identifier name =>
      cases ts with
      | nil => rfl
      | cons token ts =>
        rw [List.length_cons] at h h'
        cases token with
        | openParenthesis =>
          have hargs : arguments fuel ts = arguments fuel' ts :=
            arguments_congr (fun f hf => hr f (Nat.le_of_lt hf)) (by omega) (by omega)
          by_cases hclose : ts.head? = some .closeParenthesis
          · obtain ⟨rest, rfl⟩ := List.head?_eq_some_iff.mp hclose
            rfl
          · have hne : ∀ token ∈ ts.head?, token ≠ .closeParenthesis :=
              fun token ht heq => hclose (heq ▸ ht)
            rw [Rule.read, primary_call name hne, primary_call name hne, hargs]
        | _ => rfl
    | _ => rfl

/-- More fuel than enough makes no difference. -/
theorem settled : ∀ fuel r, Settled r fuel := by
  intro fuel
  induction fuel using Nat.strongRecOn with
  | ind fuel ih =>
    intro r
    cases fuel with
    | zero => intro _ _ h; cases r <;> simp [Rule.depth] at h
    | succ fuel =>
      have hle : ∀ {r}, ∀ f ≤ fuel, Settled r f := fun f hf => ih f (Nat.lt_succ_of_le hf) _
      have hfuel : ∀ {r}, Settled r fuel := hle fuel (Nat.le_refl fuel)
      cases r with
      | disjunction => exact settled_disjunction hle
      | conjunction => exact settled_conjunction hle
      | comparison => exact settled_comparison hfuel
      | negation => exact settled_negation hfuel hfuel
      | primary => exact settled_primary hle

end Fuel

/-! ### The language -/

/-- The tokens of an expression are those that the grammar derives. -/
theorem ofTokens_eq_ok : ofTokens ts = .ok e ↔ Derives .disjunction ts e := by
  constructor
  · intro h
    obtain ⟨⟨e', rest⟩, hread, hend⟩ := bind_eq_ok.mp h
    have hread : Rule.disjunction.read (6 * (ts.length + 1)) ts = .ok (e', rest) := hread
    obtain ⟨used, hused, rfl⟩ := reads_of_read hread
    cases rest with
    | nil => cases hend; simpa using hused
    | cons => exact nomatch hend
  · intro h
    have hread : Rule.disjunction.read (6 * (ts.length + 1)) (ts ++ []) = .ok (e, []) :=
      accepts_of_derives h _ [] (Rule.stops_nil _)
        (by simp only [List.append_nil, Rule.depth]; omega)
    rw [List.append_nil, Rule.read] at hread
    rw [ofTokens, hread]
    rfl

theorem parse_of_tokens {source : String} (h : tokens source.toList = .ok ts) :
    parse source = (ofTokens ts).mapError fun u => .unexpected source u.found u.expected := by
  rw [parse, h]
  dsimp only
  cases ofTokens ts <;> rfl

/-- The reader of expressions accepts the tokens that the grammar derives, as the expression that
the grammar gives them, and no others. All others it refuses as wrongly written, and no amount of
fuel would make a difference. -/
theorem ofTokens_iff_derives (ts : List Token) :
    (∀ e, ofTokens ts = .ok e ↔ Derives .disjunction ts e) ∧
      ((∃ u, ofTokens ts = .error u) ↔ ∀ e, ¬ Derives .disjunction ts e) ∧
      (∀ source : String, tokens source.toList = .ok ts →
        parse source = (ofTokens ts).mapError fun u => .unexpected source u.found u.expected) ∧
      ∀ fuel, 6 * (ts.length + 1) ≤ fuel →
        disjunction fuel ts = disjunction (6 * (ts.length + 1)) ts := by
  refine ⟨fun e => ofTokens_eq_ok, ?_, fun source => parse_of_tokens, fun fuel hfuel => ?_⟩
  · constructor
    · rintro ⟨u, hu⟩ e he
      rw [ofTokens_eq_ok.mpr he] at hu
      exact nomatch hu
    · intro h
      cases ho : ofTokens ts with
      | error u => exact ⟨u, rfl⟩
      | ok e => exact absurd (ofTokens_eq_ok.mp ho) (h e)
  · exact settled fuel .disjunction (6 * (ts.length + 1)) ts
      (by rw [Rule.depth]; omega) (by rw [Rule.depth]; omega)

/-- Alternatives group to the left, and equality does not chain. -/
theorem ofTokens_iff_derives_operators :
    Derives .disjunction [.identifier "a", .or, .identifier "b", .or, .not, .identifier "c"]
        (.or (.or (.path "a" []) (.path "b" [])) (.not (.path "c" []))) ∧
      (∀ e, ¬ Derives .disjunction
        [.identifier "a", .equal, .identifier "b", .equal, .identifier "c"] e) ∧
      parse "a == b == c" =
        .error (.unexpected "a == b == c" (some .equal) .endOfExpression) := by
  have hchain : ofTokens [.identifier "a", .equal, .identifier "b", .equal, .identifier "c"] =
      .error ⟨some .equal, .endOfExpression⟩ := by cbv
  have htokens : tokens "a == b == c".toList =
      .ok [.identifier "a", .equal, .identifier "b", .equal, .identifier "c"] := by decide +kernel
  obtain ⟨hiff, -⟩ := ofTokens_iff_derives
    [.identifier "a", .or, .identifier "b", .or, .not, .identifier "c"]
  obtain ⟨-, hrefused, hparse, -⟩ := ofTokens_iff_derives
    [.identifier "a", .equal, .identifier "b", .equal, .identifier "c"]
  refine ⟨(hiff _).mp (by cbv), hrefused.mp ⟨_, hchain⟩, ?_⟩
  rw [hparse _ htokens, hchain]
  rfl

end ContentTree.Expression
