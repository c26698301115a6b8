import Std.Data.ExtTreeMap

/-!
# JSON documents

## Main definitions

* `Json`: a document. Fields keep the order in which they were written, repeated names included.
* `Json.Number`: whole numbers are kept apart from floats, because identifiers and counts must be
  whole.
* `Json.isReadable`: whether every piece of a document stands for something.
* `Json.depth`, `Json.within`: how deeply arrays and objects are nested, and a bound on it.
-/

namespace ContentTree

/-- A number of a document. A whole number is written without a point or an exponent and fits into
64 bits, `negative n` standing for `-n`. -/
inductive Json.Number
  | natural (n : Nat)
  | negative (n : Nat)
  | float (x : Float)
deriving BEq

/-- A JSON document. -/
inductive Json
  | null
  | bool (b : Bool)
  | number (n : Json.Number)
  | string (s : String)
  | array (items : List Json)
  | object (fields : List (String × Json))
  /-- A piece that has the form of a document and stands for nothing: a number beyond all floats, a
  text or a key with half of a pair of surrogates, or something nested too deeply. A document may
  have such pieces where nobody looks. -/
  | unreadable
deriving BEq

namespace Json

instance : Inhabited Json := ⟨.null⟩

/-- A natural number as a document. -/
def nat (n : Nat) : Json := .number (.natural n)

/-- An optional document, `null` when absent. -/
def orNull : Option Json → Json
  | some j => j
  | none => .null

/-- An object whose absent fields are left out. -/
def objectOf (fields : List (String × Option Json)) : Json :=
  .object (fields.filterMap fun field => field.2.map (field.1, ·))

/-- How deeply arrays and objects are nested. -/
def depth : Json → Nat
  | .array items => listDepth items + 1
  | .object fields => fieldDepth fields + 1
  | _ => 0
where
  listDepth : List Json → Nat
    | [] => 0
    | item :: items => max item.depth (listDepth items)
  fieldDepth : List (String × Json) → Nat
    | [] => 0
    | (_, item) :: fields => max item.depth (fieldDepth fields)

/-- The document in which all that is nested more deeply than `n` levels is unreadable. -/
def within (n : Nat) : Json → Json
  | .array items =>
    match n with
    | 0 => .unreadable
    | n + 1 => .array (listWithin n items)
  | .object fields =>
    match n with
    | 0 => .unreadable
    | n + 1 => .object (fieldsWithin n fields)
  | j => j
where
  listWithin (n : Nat) : List Json → List Json
    | [] => []
    | item :: items => item.within n :: listWithin n items
  fieldsWithin (n : Nat) : List (String × Json) → List (String × Json)
    | [] => []
    | (name, item) :: fields => (name, item.within n) :: fieldsWithin n fields

mutual

/-- A document that is not nested too deeply stays as it is. -/
theorem within_of_depth_le {n : Nat} : (j : Json) → j.depth ≤ n → j.within n = j
  | .array items, h => by
    cases n with
    | zero => simp [depth] at h
    | succ n =>
      have h : depth.listDepth items ≤ n := by simpa [depth] using h
      simp [within, listWithin_of_listDepth_le items h]
  | .object fields, h => by
    cases n with
    | zero => simp [depth] at h
    | succ n =>
      have h : depth.fieldDepth fields ≤ n := by simpa [depth] using h
      simp [within, fieldsWithin_of_fieldDepth_le fields h]
  | .null, _ | .bool _, _ | .number _, _ | .string _, _ | .unreadable, _ => rfl

theorem listWithin_of_listDepth_le {n : Nat} :
    (items : List Json) → depth.listDepth items ≤ n → within.listWithin n items = items
  | [], _ => rfl
  | item :: items, h => by
    have h : item.depth ≤ n ∧ depth.listDepth items ≤ n := by
      simpa [depth.listDepth, Nat.max_le] using h
    simp [within.listWithin, within_of_depth_le item h.1, listWithin_of_listDepth_le items h.2]

theorem fieldsWithin_of_fieldDepth_le {n : Nat} :
    (fields : List (String × Json)) → depth.fieldDepth fields ≤ n →
      within.fieldsWithin n fields = fields
  | [], _ => rfl
  | (name, item) :: fields, h => by
    have h : item.depth ≤ n ∧ depth.fieldDepth fields ≤ n := by
      simpa [depth.fieldDepth, Nat.max_le] using h
    simp [within.fieldsWithin, within_of_depth_le item h.1,
      fieldsWithin_of_fieldDepth_le fields h.2]

end

/-- Whether no piece of a document is unreadable. -/
def isReadable : Json → Bool
  | .array items => listIsReadable items
  | .object fields => fieldsAreReadable fields
  | .unreadable => false
  | _ => true
where
  listIsReadable : List Json → Bool
    | [] => true
    | item :: items => item.isReadable && listIsReadable items
  fieldsAreReadable : List (String × Json) → Bool
    | [] => true
    | (_, item) :: fields => item.isReadable && fieldsAreReadable fields

end Json

end ContentTree
