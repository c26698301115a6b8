import ContentTree.Expression.Token
import ContentTree.Value.Basic

/-!
# Expressions

## Main definitions

* `Expression`: expressions.
* `ExpressionError`: why an expression has no value, with `ExpressionError.message`.
-/

namespace ContentTree

/-- An expression. -/
inductive Expression
  | literal (value : Value)
  /-- A name in scope and the names of fields inside its value. -/
  | path (head : String) (fields : List String)
  | not (inner : Expression)
  | equal (left right : Expression)
  | notEqual (left right : Expression)
  | and (left right : Expression)
  | or (left right : Expression)
  | call (function : String) (arguments : List Expression)
deriving BEq

namespace Expression

/-- What the grammar asks for at some place. -/
inductive Expected
  | value
  | number
  | propertyName
  | closeParenthesis
  | nextArgument
  | endOfExpression
deriving DecidableEq

/-- What is asked for, as shown in messages. -/
def Expected.text : Expected → String
  | value => "value"
  | number => "number"
  | propertyName => "property name"
  | closeParenthesis => ")"
  | nextArgument => "',' or ')'"
  | endOfExpression => "end of expression"

/-- Why a function refuses its arguments. -/
inductive ArgumentFault
  | notOne
  | notThree
  | emptyKey
  | timeoutKind
  | timeoutRange
deriving DecidableEq

/-- The wording of a fault. -/
def ArgumentFault.message : ArgumentFault → String
  | notOne => "expected one argument"
  | notThree => "expected key, timeout and value"
  | emptyKey => "key may not be empty"
  | timeoutKind => "timeout must be a number"
  | timeoutRange => "timeout out of range"

end Expression

/-- Why an expression has no value. -/
inductive ExpressionError
  /-- There is no token at the given byte of the text. -/
  | noToken (expression : String) (position : Nat)
  /-- A token, or the end, stands where something else must follow. -/
  | unexpected (expression : String) (found : Option Expression.Token)
      (expected : Expression.Expected)
  | unknownFunction (name : String)
  | invalidArguments (function : String) (fault : Expression.ArgumentFault)
deriving DecidableEq

/-- The wording of an error. -/
def ExpressionError.message : ExpressionError → String
  | noToken expression position =>
    "Unexpected character at " ++ Nat.repr position ++ " in '" ++ expression ++ "'"
  | unexpected expression found expected =>
    let found := match found with
      | some token => token.text
      | none => "end of expression"
    "Unexpected " ++ found ++ " in '" ++ expression ++ "', expected " ++ expected.text
  | unknownFunction name => "Unknown function: " ++ name
  | invalidArguments function fault => function ++ "(): " ++ fault.message

end ContentTree
