import ContentTree.Json.Printer
import ContentTree.Value.Basic

/-!
# Dynamic values and JSON documents

## Main definitions

* `Value.ofJson?`, `Value.toJson`: values and documents.
* `Value.text`: a value as it is written into the output.
-/

namespace ContentTree.Value

/-- A number of a document as a float. -/
def ofNumber : Json.Number → Float
  | .natural n => Float.ofNat n
  | .negative n => -Float.ofNat n
  | .float x => x

/-- The value of a document, if all of it can be read. -/
def ofJson? : Json → Option Value
  | .null => some null
  | .bool b => some (boolean b)
  | .number n => some (number (ofNumber n))
  | .string s => some (string s)
  | .array items => (itemsOf? items).map array
  | .object fields => (fieldsOf? fields).map ofFields
  | .unreadable => none
where
  itemsOf? : List Json → Option (List Value)
    | [] => some []
    | item :: items => do return (← ofJson? item) :: (← itemsOf? items)
  fieldsOf? : List (String × Json) → Option (List (String × Value))
    | [] => some []
    | (name, item) :: fields => do return (name, ← ofJson? item) :: (← fieldsOf? fields)

/-- A value as a document. -/
def toJson : Value → Json
  | null => .null
  | boolean b => .bool b
  | number x => .number (.float x)
  | string s => .string s
  | array items => .array (itemsToJson items)
  | object fields => .object (fieldsToJson fields)
where
  itemsToJson : List Value → List Json
    | [] => []
    | item :: items => toJson item :: itemsToJson items
  fieldsToJson : List (String × Value) → List (String × Json)
    | [] => []
    | (name, item) :: fields => (name, toJson item) :: fieldsToJson fields

/-- A value as it is written into the output. Null is empty, and arrays and objects are written as
documents. -/
def text : Value → String
  | null => ""
  | boolean true => "true"
  | boolean false => "false"
  | number x => numberText x
  | string s => s
  | array items => (array items).toJson.compact
  | object fields => (object fields).toJson.compact

end ContentTree.Value
