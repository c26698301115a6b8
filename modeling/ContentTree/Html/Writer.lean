/-!
# Writing HTML

## Main definitions

* `Writer`: a text that is written from the beginning to the end, with or without line breaks.
* `Piece`, `Line`: the parts of a written page, and parts with their depth.
* `write`: the text of several parts.
-/

namespace ContentTree.Html

/-- A text being written. -/
structure Writer where
  text : String := ""
  /-- Whether each part stands on a line of its own. -/
  indent : Bool := false

namespace Writer

/-- Writes a text. -/
def push (w : Writer) (s : String) : Writer :=
  { w with text := w.text ++ s }

/-- Begins a line at the given depth, if lines are wanted and something has been written before. -/
def line (w : Writer) (depth : Nat) : Writer :=
  if w.indent && !w.text.isEmpty then
    w.push (String.ofList ('\n' :: List.replicate (2 * depth) ' '))
  else w

/-- An attribute with a value that is escaped already. -/
def attributeText (name value : String) : String :=
  " " ++ name ++ "=\"" ++ value ++ "\""

/-- Writes an attribute. -/
def putAttribute (w : Writer) (name value : String) : Writer :=
  w.push (attributeText name value)

/-- How many bytes have been written. -/
def size (w : Writer) : Nat :=
  w.text.utf8ByteSize

end Writer

/-- A part of a page. Values of attributes and texts are escaped already. -/
inductive Piece
  | doctype
  | comment (s : String)
  | startTag (tag : String) (attributes : List (String × String))
  | endTag (tag : String)
  | text (s : String)
deriving DecidableEq

/-- A part as it is written. -/
def Piece.written : Piece → String
  | doctype => "<!DOCTYPE html>"
  | comment s => s
  | startTag tag attributes =>
    "<" ++ tag ++
      String.join (attributes.map fun a => Writer.attributeText a.1 a.2) ++ ">"
  | endTag tag => "</" ++ tag ++ ">"
  | text s => s

/-- A part of a page with its depth. -/
structure Line where
  depth : Nat
  piece : Piece
deriving DecidableEq

/-- Writes a part, on a line of its own where lines are wanted. -/
def Writer.put (w : Writer) (l : Line) : Writer :=
  (w.line l.depth).push l.piece.written

/-- The text of several parts. -/
def write (indent : Bool) (lines : List Line) : String :=
  (lines.foldl Writer.put { indent }).text

end ContentTree.Html
