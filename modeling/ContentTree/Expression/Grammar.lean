import ContentTree.Expression.Basic

/-!
# Reading expressions

The grammar, from the operators that bind least to those that bind most:

* a disjunction is one or more conjunctions with `||` between them,
* a conjunction is one or more comparisons with `&&` between them,
* a comparison is one negation, or two with `==` or `!=` between them,
* a negation is a primary expression after any number of `!`,
* a primary expression is a literal, a path, a call, or a disjunction in parentheses.

Each rule is a function on the tokens still to be read, and returns what it read with the tokens
after it. All of them share a measure of fuel, of which every call takes one; between two calls of
the same rule without a token read there are fewer than six others.

## Main definitions

* `disjunction`, `conjunction`, `comparison`, `negation`, `primary`: the rules.
* `ofTokens`, `parse`: the expression of a list of tokens and of a text.
-/

namespace ContentTree.Expression

/-- A token, or the end, that stands where something else must follow. -/
structure Unexpected where
  found : Option Token
  expected : Expected
deriving DecidableEq

/-- Refuses the first of the given tokens, or the end. -/
def refuse {α : Type} (tokens : List Token) (expected : Expected) :
    Except Unexpected α :=
  .error ⟨tokens.head?, expected⟩

/-- The names of fields, each after a point. -/
def fields : List Token → Except Unexpected (List String × List Token)
  | .dot :: .identifier name :: rest => do
    let (names, rest) ← fields rest
    return (name :: names, rest)
  | .dot :: rest => refuse rest .propertyName
  | rest => return ([], rest)

mutual

/-- Reads a disjunction. -/
def disjunction : (fuel : Nat) → List Token → Except Unexpected (Expression × List Token)
  | 0, tokens => refuse tokens .value
  | fuel + 1, tokens => do
    let (left, rest) ← conjunction fuel tokens
    disjunctionAfter fuel left rest

/-- Reads the rest of a disjunction. -/
def disjunctionAfter : (fuel : Nat) → Expression → List Token →
    Except Unexpected (Expression × List Token)
  | fuel + 1, left, .or :: rest => do
    let (right, rest) ← conjunction fuel rest
    disjunctionAfter fuel (.or left right) rest
  | _, left, rest => return (left, rest)

/-- Reads a conjunction. -/
def conjunction : (fuel : Nat) → List Token → Except Unexpected (Expression × List Token)
  | 0, tokens => refuse tokens .value
  | fuel + 1, tokens => do
    let (left, rest) ← comparison fuel tokens
    conjunctionAfter fuel left rest

/-- Reads the rest of a conjunction. -/
def conjunctionAfter : (fuel : Nat) → Expression → List Token →
    Except Unexpected (Expression × List Token)
  | fuel + 1, left, .and :: rest => do
    let (right, rest) ← comparison fuel rest
    conjunctionAfter fuel (.and left right) rest
  | _, left, rest => return (left, rest)

/-- Reads a comparison. -/
def comparison : (fuel : Nat) → List Token → Except Unexpected (Expression × List Token)
  | 0, tokens => refuse tokens .value
  | fuel + 1, tokens => do
    let (left, rest) ← negation fuel tokens
    match rest with
    | .equal :: rest =>
      let (right, rest) ← negation fuel rest
      return (.equal left right, rest)
    | .notEqual :: rest =>
      let (right, rest) ← negation fuel rest
      return (.notEqual left right, rest)
    | rest => return (left, rest)

/-- Reads a negation. -/
def negation : (fuel : Nat) → List Token → Except Unexpected (Expression × List Token)
  | 0, tokens => refuse tokens .value
  | fuel + 1, .not :: rest => do
    let (inner, rest) ← negation fuel rest
    return (.not inner, rest)
  | fuel + 1, tokens => primary fuel tokens

/-- Reads a primary expression. -/
def primary : (fuel : Nat) → List Token → Except Unexpected (Expression × List Token)
  | fuel + 1, .openParenthesis :: rest => do
    let (inner, rest) ← disjunction fuel rest
    match rest with
    | .closeParenthesis :: rest => return (inner, rest)
    | rest => refuse rest .closeParenthesis
  | fuel + 1, .identifier name :: .openParenthesis :: rest => do
    match rest with
    | .closeParenthesis :: rest => return (.call name [], rest)
    | rest =>
      let (arguments, rest) ← arguments fuel rest
      return (.call name arguments, rest)
  | _ + 1, .identifier name :: rest => do
    let (names, rest) ← fields rest
    return (.path name names, rest)
  | _ + 1, .true :: rest => return (.literal (.boolean true), rest)
  | _ + 1, .false :: rest => return (.literal (.boolean false), rest)
  | _ + 1, .null :: rest => return (.literal .null, rest)
  | _ + 1, .string quoted :: rest => return (.literal (.string (unquote quoted)), rest)
  | _ + 1, .number digits :: rest =>
    match Decimal.ofText? digits.toList with
    | some x => return (.literal (.number x), rest)
    | none => refuse (.number digits :: rest) .number
  | _, tokens => refuse tokens .value

/-- Reads one or more arguments and the parenthesis after them. -/
def arguments : (fuel : Nat) → List Token → Except Unexpected (List Expression × List Token)
  | 0, tokens => refuse tokens .value
  | fuel + 1, tokens => do
    let (first, rest) ← disjunction fuel tokens
    match rest with
    | .comma :: rest =>
      let (others, rest) ← arguments fuel rest
      return (first :: others, rest)
    | .closeParenthesis :: rest => return ([first], rest)
    | rest => refuse rest .nextArgument

end

/-- The expression that the tokens make up. -/
def ofTokens (tokens : List Token) : Except Unexpected Expression := do
  let (e, rest) ← disjunction (6 * (tokens.length + 1)) tokens
  if rest.isEmpty then return e else throw ⟨rest.head?, .endOfExpression⟩

/-- The expression a text stands for. -/
def parse (source : String) : Except ExpressionError Expression :=
  match tokens source.toList with
  | .error rest =>
    .error (.noToken source (source.utf8ByteSize - (String.ofList rest).utf8ByteSize))
  | .ok tokens =>
    match ofTokens tokens with
    | .error e => .error (.unexpected source e.found e.expected)
    | .ok e => .ok e

end ContentTree.Expression
