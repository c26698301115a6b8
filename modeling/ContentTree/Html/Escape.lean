import ContentTree.Text.Blank
import ContentTree.Text.Search

/-!
# Escaping in HTML

## Main definitions

* `isVoid`: elements that have no content and no end tag.
* `escapeText`, `escapeAttribute`: texts with the characters replaced that have a meaning in HTML.
* `unescapeAttribute`: the way back.
-/

namespace ContentTree.Html

/-- The tags of elements without content. -/
def voidTags : List String :=
  ["area", "base", "br", "col", "command", "embed", "hr", "img", "input", "keygen", "link", "meta",
    "param", "source", "track", "wbr"]

/-- Whether an element has no content, whatever the case of its tag. -/
def isVoid (tag : String) : Bool :=
  voidTags.contains (Text.lower tag)

/-- How one character is written between tags. -/
def escapeTextChar (c : Char) : List Char :=
  match c with
  | '&' => "&amp;".toList
  | '<' => "&lt;".toList
  | '>' => "&gt;".toList
  | c => [c]

/-- How one character is written in the value of an attribute. -/
def escapeAttributeChar (c : Char) : List Char :=
  match c with
  | '"' => "&quot;".toList
  | '\'' => "&#39;".toList
  | c => escapeTextChar c

/-- A text as it is written between tags. -/
def escapeText (s : String) : String :=
  String.ofList (s.toList.flatMap escapeTextChar)

/-- A text as it is written in the value of an attribute. -/
def escapeAttribute (s : String) : String :=
  String.ofList (s.toList.flatMap escapeAttributeChar)

/-- The escaped characters in the order in which they are put back. The ampersand comes last, so
that what it brings to light is not taken for another escape. -/
def escapes : List (String × Char) :=
  [("&quot;", '"'), ("&#39;", '\''), ("&lt;", '<'), ("&gt;", '>'), ("&amp;", '&')]

/-- The text that the value of an attribute stands for. -/
def unescapeAttribute (s : String) : String :=
  String.ofList <|
    escapes.foldl (fun text escape => Text.replace escape.1.toList [escape.2] text) s.toList

end ContentTree.Html
