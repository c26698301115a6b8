import ContentTree.Json.Basic

/-!
# Records in JSON documents

How records, choices and maps are read from documents. A record is an object in which none of its
own fields is repeated, while fields of other names are passed over, whether readable or not; or an
array that gives the fields in their order. A choice names its variant in a field of its own, and
all of it must be readable.

## Main definitions

* `record?`, `required?`, `optional?`, `orElse?`: records and their fields.
* `Spelling`: how freely choices may be spelled.
* `tagged?`: a choice, as the name of the variant and the remaining fields.
* `word?`: a choice without fields.
* `list?`, `map?`: arrays of items, and objects as maps, where the last entry for a key counts.
-/

namespace ContentTree.Json

/-- The fields of a record by name. -/
abbrev Fields := List (String × Json)

/-- Whether no name occurs twice. -/
def distinctNames (fields : Fields) : Bool :=
  (fields.map Prod.fst).Nodup

/-- The fields of a record that has the given field names, in their order. -/
def record? (names : List String) : Json → Option Fields
  | .object fields =>
    let own := fields.filter fun field => names.contains field.1
    if distinctNames own then some own else none
  | .array items => if items.length ≤ names.length then some (names.zip items) else none
  | _ => none

/-- The fields of a record of which an array must give every one. -/
def fullRecord? (names : List String) : Json → Option Fields
  | .array items => if items.length = names.length then some (names.zip items) else none
  | j => record? names j

/-- A field that must be there. -/
def required? {α : Type} (read : Json → Option α) (fields : Fields) (name : String) : Option α :=
  (fields.lookup name).bind read

/-- A field that may be missing or `null`. -/
def optional? {α : Type} (read : Json → Option α) (fields : Fields) (name : String) :
    Option (Option α) :=
  match fields.lookup name with
  | none | some .null => some none
  | some j => (read j).map some

/-- A field that may be missing, with a value for that case. -/
def orElse? {α : Type} (default : α) (read : Json → Option α) (fields : Fields) (name : String) :
    Option α :=
  match fields.lookup name with
  | none => some default
  | some j => read j

/-- How freely choices may be spelled. -/
inductive Spelling
  /-- A variant goes by its word. -/
  | strict
  /-- A variant also goes by its place in the list of variants, and an empty object may stand for
  the fields that it does not have. -/
  | loose
deriving DecidableEq

/-- The word for a variant, given by itself or by its place among the words. -/
def variant? (spelling : Spelling) (words : List String) : Json → Option String
  | .string word => some word
  | .number (.natural place) => if spelling = .loose then words[place]? else none
  | _ => none

/-- A choice: the word for the variant and the record of its fields. The variant stands in the field
`tag` of an object, or first in an array. -/
def tagged? (spelling : Spelling) (words : List String) (tag : String) (j : Json) :
    Option (String × Json) :=
  if j.isReadable then
    match j with
    | .object fields =>
      match fields.filter (·.1 = tag) with
      | [(_, variant)] =>
        (variant? spelling words variant).map (·, .object (fields.filter (·.1 ≠ tag)))
      | _ => none
    | .array (variant :: items) => (variant? spelling words variant).map (·, .array items)
    | _ => none
  else none

/-- A choice without fields: its word, or an object that has only this word, with `null`. -/
def word? (spelling : Spelling) : Json → Option String
  | .string s => some s
  | .object [(s, .null)] => some s
  | .object [(s, .object [])] => if spelling = .loose then some s else none
  | _ => none

/-- A text. -/
def string? : Json → Option String
  | .string s => some s
  | _ => none

/-- A truth value. -/
def bool? : Json → Option Bool
  | .bool b => some b
  | _ => none

/-- A natural number below 2 ^ 64. -/
def nat? : Json → Option Nat
  | .number (.natural n) => some n
  | _ => none

/-- An array of items. -/
def list? {α : Type} (read : Json → Option α) : Json → Option (List α)
  | .array items => items.mapM read
  | _ => none

/-- An object as a map. The last entry for a key counts. -/
def map? {α : Type} (read : Json → Option α) : Json → Option (Std.ExtTreeMap String α)
  | .object fields => fields.foldlM (fun m field => (read field.2).map (m.insert field.1 ·)) ∅
  | _ => none

/-- A map as an object, with its keys in order. -/
def ofMap {α : Type} (write : α → Json) (m : Std.ExtTreeMap String α) : Json :=
  .object (m.toList.map fun entry => (entry.1, write entry.2))

end ContentTree.Json
