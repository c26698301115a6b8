import ContentTree.Directive.Basic

/-!
# Deployment directives in comments

The directives of a node are written into one HTML comment before it, divided by commas.

## Main definitions

* `Directive.ofText?`: the directive a text stands for.
* `Directive.comment?`: the comment for several directives.
* `Directive.ofComment?`: the directives of a comment.
* `DirectiveError`: why there are none.
-/

namespace ContentTree

/-- Why a text is not a directive or a comment with directives. -/
inductive DirectiveError
  /-- The text does not begin like a directive, or names none. -/
  | unknown (text : String)
  /-- The text has the form of neither a directive nor a comment. -/
  | malformed (text : String)
deriving DecidableEq

/-- The wording of an error. -/
def DirectiveError.message : DirectiveError → String
  | unknown text => "Not a deployment instruction: " ++ text
  | malformed text => "Malformed deployment instruction: " ++ text

namespace Directive

/-- The directive with the given word and without parentheses. -/
def ofWord? (word : String) : Option Directive :=
  match word with
  | "public" => some (audience .everyone)
  | "public-only" => some (audience .publicOnly)
  | "protected" => some (audience .usersOnly)
  | "private" => some (audience .nobody)
  | _ => none

/-- Splits what a directive says about a grant at the last comma. -/
def ofGrantArgument? (argument : String) : Option Directive :=
  (Text.cutLast? ',' argument.toList).map fun (principal, letters) =>
    grant (String.ofList principal) (String.ofList letters)

/-- The directive a text stands for. White space around it does not count. -/
def ofText? (s : String) : Except DirectiveError Directive := do
  let some body := Text.after? marker.toList (Text.trim s).toList | throw (.unknown s)
  match Text.cut? ['('] body with
  | none =>
    match ofWord? (String.ofList body) with
    | some d => return d
    | none => throw (.unknown s)
  | some (word, rest) =>
    let some argument := Text.beforeLast? ')' rest | throw (.malformed s)
    let argument := String.ofList argument
    match String.ofList word with
    | "owner" => return owner argument
    | "grant" =>
      match ofGrantArgument? argument with
      | some d => return d
      | none => throw (.malformed s)
    | "link" => return link argument
    | "pagelink" => return pageLink argument
    | "content" => return content (Html.unescapeAttribute argument)
    | "show" => return showWhen (Html.unescapeAttribute argument)
    | "hide" => return hideWhen (Html.unescapeAttribute argument)
    | _ => throw (.unknown s)

/-- The comment for several directives; without directives there is none. -/
def comment? : List Directive → Option String
  | [] => none
  | ds => some ("<!-- " ++ String.intercalate ", " (ds.map text) ++ " -->")

/-- What stands between two directives of a comment, with the beginning of the second. -/
def separator : List Char :=
  (", " ++ marker).toList

/-- The directives of the inside of a comment. -/
def ofBody? (body : List Char) : Except DirectiveError (List Directive) :=
  match Text.pieces separator body with
  | [] => .ok []
  | first :: others =>
    (first :: others.map (marker.toList ++ ·)).mapM fun part => ofText? (String.ofList part)

/-- The directives of a comment. -/
def ofComment? (s : String) : Except DirectiveError (List Directive) := do
  let inside := do
    let rest ← Text.after? "<!--".toList (Text.trim s).toList
    Text.before? "-->".toList rest
  match inside with
  | some body => ofBody? (Text.trimChars body)
  | none => throw (.malformed s)

end Directive

end ContentTree
