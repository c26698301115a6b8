import ContentTree.Decimal.Layout
import ContentTree.Text.Blank
import ContentTree.Text.Search
import Std.Data.ExtTreeMap

/-!
# Dynamic values

What expressions evaluate to and what data sources deliver. Numbers are floats, and the fields of an
object stand in the order of their keys.

## Main definitions

* `Value`: dynamic values.
* `Value.isTruthy`, `Value.isEmpty`: two ways in which a value counts as something or nothing.
* `Value.get?`, `Value.getPath?`: fields of objects.
* `Value.items`: the elements that a value stands for in a list.
-/

namespace ContentTree

/-- A dynamic value. -/
inductive Value
  | null
  | boolean (b : Bool)
  | number (x : Float)
  | string (s : String)
  | array (items : List Value)
  | object (fields : List (String × Value))
deriving BEq

namespace Value

instance : Inhabited Value := ⟨null⟩

/-- The object with the given fields. The last field of a name counts. -/
def ofFields (fields : List (String × Value)) : Value :=
  object (fields.foldl (fun m field => m.insert field.1 field.2)
    (∅ : Std.ExtTreeMap String Value)).toList

/-- Whether a value counts as true: neither null, false, zero nor empty. -/
def isTruthy : Value → Bool
  | null => false
  | boolean b => b
  | number x => x != 0.0
  | string s => !s.isEmpty
  | array items => !items.isEmpty
  | object fields => !fields.isEmpty

/-- Whether a value holds nothing: null, a blank text, or no items or fields. -/
def isEmpty : Value → Bool
  | null => true
  | boolean _ => false
  | number _ => false
  | string s => Text.isBlank s
  | array items => items.isEmpty
  | object fields => fields.isEmpty

/-- The field of an object. -/
def get? (name : String) : Value → Option Value
  | object fields => fields.lookup name
  | _ => none

/-- The field at the end of a path of names divided by points, as in `author.name`. Empty names are
passed over. -/
def getPath? (path : String) (v : Value) : Option Value :=
  ((Text.pieces ['.'] path.toList).filter (· ≠ [])).foldlM
    (fun v name => v.get? (String.ofList name)) v

/-- The elements a value stands for in a list: those of an array, none for null, and otherwise the
value itself. -/
def items : Value → List Value
  | array items => items
  | null => []
  | v => [v]

/-- A number as text: positional, with zero written without a sign. -/
def numberText (x : Float) : String :=
  if x == 0.0 then "0" else Decimal.plain x

end Value

end ContentTree
