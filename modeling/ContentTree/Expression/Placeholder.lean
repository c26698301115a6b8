import ContentTree.Value.Json
import ContentTree.Text.Search

/-!
# Placeholders in texts

A placeholder is an expression between `${` and `}`. Braces inside its strings do not count, and
braces outside them come in pairs. A placeholder that is never closed is not one, and the text from
there on stays as it is.

## Main definitions

* `body?`: the expression of a placeholder and the text after it.
* `pieces`: a text as a list of literal texts and expressions.
* `interpolate`: a text with each expression replaced by its value.
-/

namespace ContentTree.Placeholder

/-- Where in a placeholder a character stands. -/
inductive Place
  /-- Outside strings, inside the given number of further braces. -/
  | code (depth : Nat)
  /-- In a string with the given quote. -/
  | quoted (quote : Char) (depth : Nat)
  /-- Behind a backslash in a string. -/
  | escaped (quote : Char) (depth : Nat)

/-- The place after a character, or nothing where it closes the placeholder. -/
def Place.next? (c : Char) : Place → Option Place
  | code depth =>
    if c = '"' || c = '\'' then some (quoted c depth)
    else if c = '\x7b' then some (code (depth + 1))
    else if c = '\x7d' then (if depth = 0 then none else some (code (depth - 1)))
    else some (code depth)
  | quoted quote depth =>
    if c = '\\' then some (escaped quote depth)
    else if c = quote then some (code depth)
    else some (quoted quote depth)
  | escaped quote depth => some (quoted quote depth)

/-- The text up to the brace that closes a placeholder. -/
def bodyFrom? (place : Place) : List Char → Option (List Char)
  | [] => none
  | c :: text =>
    match place.next? c with
    | none => some []
    | some place => (bodyFrom? place text).map (c :: ·)

/-- The expression of a placeholder, from the text after its opening. -/
def body? (text : List Char) : Option (List Char) :=
  bodyFrom? (.code 0) text

/-- A part of a text. -/
inductive Piece
  | literal (text : List Char)
  | expression (text : List Char)
deriving DecidableEq

/-- Puts a character before the pieces of a text. -/
def addChar (c : Char) : List Piece → List Piece
  | .literal text :: rest => .literal (c :: text) :: rest
  | rest => .literal [c] :: rest

/-- What opens a placeholder. -/
def opening : List Char := ['$', '\x7b']

/-- The pieces of a text, after passing over the given number of characters of a placeholder. -/
def piecesFrom : (skip : Nat) → List Char → List Piece
  | _, [] => []
  | skip + 1, _ :: text => piecesFrom skip text
  | 0, c :: text =>
    match Text.after? opening (c :: text) with
    | some inner =>
      match body? inner with
      | some e => .expression e :: piecesFrom (e.length + 2) text
      | none => [.literal (c :: text)]
    | none => addChar c (piecesFrom 0 text)

/-- The pieces of a text. -/
def pieces (text : List Char) : List Piece :=
  piecesFrom 0 text

/-- A text with each expression replaced by its value. An expression without a value is left out. -/
def interpolate {m : Type → Type} [Monad m] (evaluate : String → m (Option Value)) (text : String) :
    m String := do
  let parts ← (pieces text.toList).mapM fun piece => do
    match piece with
    | .literal text => return String.ofList text
    | .expression source =>
      match ← evaluate (String.ofList source) with
      | some v => return v.text
      | none => return ""
  return String.join parts

end ContentTree.Placeholder
