import ContentTree.Json.Token

/-!
# Reading JSON documents

The tokens of a document are taken one by one, with the arrays and objects still open on a stack.
A document ends where its first value ends: nothing may follow.

## Main definitions

* `State`, `step`: what has been read so far, and how a token changes it.
* `parse?`: the document a text stands for, however deeply nested.
* `read?`: the same, unreadable beyond the 127 levels that may be used.
-/

namespace ContentTree.Json

/-- Fields with their keys, of which some may be unreadable. -/
abbrev RawFields := List (Option String × Json)

/-- An array or object still open, with the items before the one being read, last first. -/
inductive Frame
  | array (items : List Json)
  | object (fields : RawFields) (key : Option String)

/-- How far a document has been read, inside the given open arrays and objects. -/
inductive State
  /-- A value must follow. -/
  | value (outer : List Frame)
  /-- A value or the end of the innermost array must follow. -/
  | item (outer : List Frame)
  /-- The first key of an object or its end must follow. -/
  | firstKey (outer : List Frame)
  /-- A key must follow. -/
  | key (fields : RawFields) (outer : List Frame)
  /-- The colon after a key must follow. -/
  | colon (fields : RawFields) (key : Option String) (outer : List Frame)
  /-- A value has just ended. -/
  | after (value : Json) (outer : List Frame)

/-- The string of a token as a document. -/
def ofString : Option String → Json
  | some s => .string s
  | none => .unreadable

/-- The object of the fields, unreadable where one of the keys is. -/
def ofFields (fields : RawFields) : Json :=
  match fields.mapM fun field => field.1.map (·, field.2) with
  | some fields => .object fields
  | none => .unreadable

/-- Where a value may begin. -/
def beginValue (outer : List Frame) : Token → Option State
  | .word value => some (.after value outer)
  | .string s => some (.after (ofString s) outer)
  | .openArray => some (.item (.array [] :: outer))
  | .openObject => some (.firstKey outer)
  | _ => none

/-- Takes one token. -/
def step : State → Token → Option State
  | .value outer, token => beginValue outer token
  | .item (.array [] :: outer), .closeArray => some (.after (.array []) outer)
  | .item outer, token => beginValue outer token
  | .firstKey outer, .closeObject => some (.after (.object []) outer)
  | .firstKey outer, .string key => some (.colon [] key outer)
  | .key fields outer, .string key => some (.colon fields key outer)
  | .colon fields key outer, .colon => some (.value (.object fields key :: outer))
  | .after v (.array items :: outer), .comma => some (.value (.array (v :: items) :: outer))
  | .after v (.array items :: outer), .closeArray =>
    some (.after (.array (v :: items).reverse) outer)
  | .after v (.object fields key :: outer), .comma => some (.key ((key, v) :: fields) outer)
  | .after v (.object fields key :: outer), .closeObject =>
    some (.after (ofFields ((key, v) :: fields).reverse) outer)
  | _, _ => none

/-- The document that the tokens make up. -/
def ofTokens? (tokens : List Token) : Option Json :=
  match tokens.foldlM step (.value []) with
  | some (.after value []) => some value
  | _ => none

/-- The document a text stands for, however deeply nested. -/
def parse? (text : String) : Option Json :=
  (tokens? text.toList).bind ofTokens?

/-- The deepest nesting of what is read from a document. -/
def nestingLimit : Nat := 127

/-- The document a text stands for, unreadable where it is nested too deeply. -/
def read? (text : String) : Option Json :=
  (parse? text).map (within nestingLimit)

end ContentTree.Json
