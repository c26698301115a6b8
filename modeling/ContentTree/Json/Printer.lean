import ContentTree.Json.Basic
import ContentTree.Decimal.Layout
import ContentTree.Text.Hexadecimal

/-!
# Writing JSON documents

Strings escape the quote, the backslash and the controls below U+0020; everything else stands as it
is. A float is written with its shortest digits. What has no text of its own is written as `null`:
floats that are not finite, and whatever is unreadable.

## Main definitions

* `compact`: a document without white space.
* `pretty`: a document with each item on a line of its own, indented by two blanks per level.
-/

namespace ContentTree.Json

/-- How one character is written inside a string. -/
def escapeChar (c : Char) : List Char :=
  match c with
  | '"' => ['\\', '"']
  | '\\' => ['\\', '\\']
  | '\x08' => ['\\', 'b']
  | '\x0c' => ['\\', 'f']
  | '\n' => ['\\', 'n']
  | '\r' => ['\\', 'r']
  | '\t' => ['\\', 't']
  | c => if c < ' ' then '\\' :: 'u' :: Text.hexPadded 4 c.toNat else [c]

/-- A string between quotes. -/
def stringChars (s : String) : List Char :=
  '"' :: s.toList.flatMap escapeChar ++ ['"']

/-- A number. -/
def Number.chars : Number → List Char
  | .natural n => Decimal.digitChars n
  | .negative n => '-' :: Decimal.digitChars n
  | .float x => if x.isFinite then (Decimal.json x).toList else "null".toList

/-- A document without white space. -/
def compactChars : Json → List Char
  | .null | .unreadable => "null".toList
  | .bool true => "true".toList
  | .bool false => "false".toList
  | .number n => n.chars
  | .string s => stringChars s
  | .array items => '[' :: compactItems items ++ [']']
  | .object fields => '\x7b' :: compactFields fields ++ ['\x7d']
where
  compactItems : List Json → List Char
    | [] => []
    | [item] => compactChars item
    | item :: items => compactChars item ++ ',' :: compactItems items
  compactFields : List (String × Json) → List Char
    | [] => []
    | [(key, item)] => stringChars key ++ ':' :: compactChars item
    | (key, item) :: fields =>
      stringChars key ++ ':' :: compactChars item ++ ',' :: compactFields fields

/-- A line end and the indentation of a level. -/
def newline (level : Nat) : List Char :=
  '\n' :: List.replicate (2 * level) ' '

/-- A document with each item on a line of its own, inside the given number of levels. -/
def prettyChars (level : Nat) : Json → List Char
  | .array [] => "[]".toList
  | .array items => '[' :: prettyItems (level + 1) items ++ newline level ++ [']']
  | .object [] => "\x7b\x7d".toList
  | .object fields => '\x7b' :: prettyFields (level + 1) fields ++ newline level ++ ['\x7d']
  | scalar => compactChars scalar
where
  prettyItems (level : Nat) : List Json → List Char
    | [] => []
    | [item] => newline level ++ prettyChars level item
    | item :: items => newline level ++ prettyChars level item ++ ',' :: prettyItems level items
  prettyFields (level : Nat) : List (String × Json) → List Char
    | [] => []
    | [(key, item)] => newline level ++ stringChars key ++ ':' :: ' ' :: prettyChars level item
    | (key, item) :: fields =>
      newline level ++ stringChars key ++ ':' :: ' ' :: prettyChars level item ++
        ',' :: prettyFields level fields

/-- The text of a document without white space. -/
def compact (j : Json) : String :=
  String.ofList (compactChars j)

/-- The text of a document with each item on a line of its own. -/
def pretty (j : Json) : String :=
  String.ofList (prettyChars 0 j)

end ContentTree.Json
