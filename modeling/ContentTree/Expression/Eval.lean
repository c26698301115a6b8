import ContentTree.Cache
import ContentTree.Expression.Grammar
import ContentTree.Value.Json

/-!
# Evaluating expressions

Names are looked up in a scope; `this` stands for the node at hand and hides any other binding of
the name. There are two functions: `empty` tells whether its argument holds nothing, and `cache`
keeps the value of its last argument under a key for a number of seconds.

## Main definitions

* `Scope`: what names stand for.
* `Expression.eval`: the value of an expression.
* `evaluate`: the value of the expression that a text stands for.
-/

namespace ContentTree

/-- What names stand for. -/
structure Scope where
  /-- The node at hand. -/
  this : Value
  lookup : String → Option Value

/-- An evaluation uses a cache and a clock, and may fail. -/
abbrev Evaluation (α : Type) := ExceptT ExpressionError (StateT Cache (StateM Clock)) α

namespace Expression

/-- Whether two values count as equal. A number also equals a text that stands for it. -/
def looselyEqual : Value → Value → Bool
  | .number x, .string s => (Decimal.ofText? (Text.trimChars s.toList)).any (· == x)
  | .string s, .number x => (Decimal.ofText? (Text.trimChars s.toList)).any (· == x)
  | v, w => v == w

/-- The value of a path. What is not there is null. -/
def resolve (s : Scope) (head : String) (fields : List String) : Value :=
  let root := if head = "this" then some s.this else s.lookup head
  (root.bind fun v => fields.foldlM (fun v name => v.get? name) v).getD .null

/-- The value of an expression. The right side of `&&` and `||` is only evaluated when it matters,
and the last argument of `cache` only when its value is not in the cache. -/
def eval (s : Scope) : Expression → Evaluation Value
  | literal v => return v
  | path head fields => return resolve s head fields
  | not inner => do return .boolean !(← eval s inner).isTruthy
  | equal left right => do
    let v ← eval s left
    let w ← eval s right
    return .boolean (looselyEqual v w)
  | notEqual left right => do
    let v ← eval s left
    let w ← eval s right
    return .boolean !(looselyEqual v w)
  | and left right => do
    if (← eval s left).isTruthy then return .boolean (← eval s right).isTruthy
    else return .boolean false
  | or left right => do
    if (← eval s left).isTruthy then return .boolean true
    else return .boolean (← eval s right).isTruthy
  | call "empty" [argument] => do return .boolean (← eval s argument).isEmpty
  | call "empty" _ => throw (.invalidArguments "empty" .notOne)
  | call "cache" [key, timeout, value] => do
    let key := (← eval s key).text
    if Text.isBlank key then throw (.invalidArguments "cache" .emptyKey)
    match ← eval s timeout with
    | .number seconds =>
      match Cache.span? seconds with
      | some timeToLive => Cache.lookupBy (liftM Clock.read) key timeToLive (eval s value)
      | none => throw (.invalidArguments "cache" .timeoutRange)
    | _ => throw (.invalidArguments "cache" .timeoutKind)
  | call "cache" _ => throw (.invalidArguments "cache" .notThree)
  | call name _ => throw (.unknownFunction name)

end Expression

/-- The value of the expression that a text stands for. -/
def evaluate (s : Scope) (source : String) : Evaluation Value := do
  match Expression.parse source with
  | .ok e => e.eval s
  | .error e => throw e

end ContentTree
