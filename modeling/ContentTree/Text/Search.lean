/-!
# Searching texts

Finding, cutting at and replacing a given piece inside a list of characters. Occurrences are
taken from the left and never overlap. Each function is one pass over the characters.

## Main definitions

* `after?`: what follows a given beginning.
* `cut?`: the text before and after the first occurrence of a piece.
* `pieces`: the parts of a text between all occurrences of a separator.
* `replace`: a text with every occurrence of a piece exchanged for another.
-/

namespace ContentTree.Text

/-- What follows `lead` in a text that begins with it. -/
def after? : (lead text : List Char) → Option (List Char)
  | [], text => some text
  | _ :: _, [] => none
  | a :: lead, c :: text => if a = c then after? lead text else none

/-- The text before and the text after the first occurrence of `piece`. -/
def cut? (piece : List Char) : List Char → Option (List Char × List Char)
  | [] => (after? piece []).map ([], ·)
  | c :: text =>
    match after? piece (c :: text) with
    | some rest => some ([], rest)
    | none => (cut? piece text).map fun parts => (c :: parts.1, parts.2)

/-- The text before and the text after the last occurrence of one character. -/
def cutLast? (mark : Char) : List Char → Option (List Char × List Char)
  | [] => none
  | c :: text =>
    match cutLast? mark text with
    | some (before, rest) => some (c :: before, rest)
    | none => if c = mark then some ([], text) else none

/-- Whether `piece` occurs in a text; the empty piece occurs in every text. -/
def occurs (piece text : List Char) : Bool :=
  (cut? piece text).isSome

/-- `occurs` on strings. -/
def contains (text piece : String) : Bool :=
  occurs piece.toList text.toList

/-- The part of a text before its last character, when that character is `mark`. -/
def beforeLast? (mark : Char) (text : List Char) : Option (List Char) :=
  match text.reverse with
  | [] => none
  | c :: before => if c = mark then some before.reverse else none

/-- The part of a text before `tail`, when the text ends with it. -/
def before? (tail text : List Char) : Option (List Char) :=
  (after? tail.reverse text.reverse).map List.reverse

/-- The parts of a text between the occurrences of `piece`. The number counts the characters of
an occurrence that are still to be passed over; the second argument is the current part, last
character first. -/
def piecesFrom (piece : List Char) : Nat → List Char → List Char → List (List Char)
  | _, part, [] => [part.reverse]
  | skip + 1, part, _ :: text => piecesFrom piece skip part text
  | 0, part, c :: text =>
    match after? piece (c :: text) with
    | some _ => part.reverse :: piecesFrom piece (piece.length - 1) [] text
    | none => piecesFrom piece 0 (c :: part) text

/-- The parts of a text between the occurrences of a non-empty separator. There is always one
part more than there are occurrences. -/
def pieces (piece text : List Char) : List (List Char) :=
  piecesFrom piece 0 [] text

/-- Exchanges occurrences of `piece` for `other`, after passing over the given number of
characters of an occurrence already exchanged. -/
def replaceFrom (piece other : List Char) : Nat → List Char → List Char
  | _, [] => []
  | skip + 1, _ :: text => replaceFrom piece other skip text
  | 0, c :: text =>
    match after? piece (c :: text) with
    | some _ => other ++ replaceFrom piece other (piece.length - 1) text
    | none => c :: replaceFrom piece other 0 text

/-- A text with every occurrence of a non-empty piece exchanged for another text. -/
def replace (piece other text : List Char) : List Char :=
  replaceFrom piece other 0 text

/-- Texts joined with a separator between neighbours. -/
def join (separator : List Char) : List (List Char) → List Char
  | [] => []
  | [part] => part
  | part :: parts => part ++ separator ++ join separator parts

end ContentTree.Text
