import ContentTree.Expression.Eval
import ContentTree.Node.Basic
import ContentTree.View.EditMode

/-!
# The context of a view

Who looks at a page, in which language and mode, and what names stand for while the page is written.

## Main definitions

* `Context`: contexts.
* `Context.lookup`, `Context.bind`: what names stand for, and new bindings.
* `Context.scope`: the scope of expressions at a node.
-/

namespace ContentTree

/-- What expressions can see of a node. -/
def Node.value (n : Node) : Value :=
  .ofFields <|
    [("id", .string n.hashOrId), ("name", .string n.contextName), ("type", .string n.kind.word)] ++
      (n.kind.tag?.map fun tag => ("tag", Value.string tag)).toList

/-- What expressions can see of a principal. -/
def Principal.value (p : Principal) : Value :=
  .ofFields
    [("name", match p.name? with | some name => .string name | none => .null),
      ("isAdmin", .boolean p.isAdmin), ("isAnonymous", .boolean p.isAnonymous)]

namespace View

/-- Who looks at a page, and what names stand for. -/
structure Context where
  principal : Principal := .anonymous
  locale : String := "en"
  requestedMode : EditMode := .normal
  /-- The object that is looked at, if any. -/
  details : Option Value := none
  /-- The parameters of the request. -/
  parameters : Std.ExtTreeMap String String := ∅
  /-- The objects bound by the lists around a node. -/
  bindings : Std.ExtTreeMap String Value := ∅
  /-- The object bound last. -/
  current : Option Value := none

namespace Context

/-- The mode in which the page is written. -/
def mode (c : Context) : EditMode :=
  c.requestedMode.resolve c.principal c.details.isSome

/-- What a name stands for. Bindings come before the names that are always there. -/
def lookup (c : Context) (name : String) : Option Value :=
  match c.bindings[name]? with
  | some v => some v
  | none =>
    match name with
    | "current" => c.current
    | "details" => c.details
    | "locale" => some (.string c.locale)
    | "request" => some (.object (c.parameters.toList.map fun p => (p.1, .string p.2)))
    | "me" => some c.principal.value
    | _ => none

/-- Binds an object, which becomes the current one. -/
def bind (c : Context) (key : String) (v : Value) : Context :=
  { c with bindings := c.bindings.insert key v, current := some v }

/-- Takes back the bindings of a key since an earlier context. -/
def restore (c earlier : Context) (key : String) : Context :=
  { c with
    bindings := c.bindings.alter key fun _ => earlier.bindings[key]?
    current := earlier.current }

/-- The scope of expressions at a node. -/
def scope (c : Context) (n : Node) : Scope where
  this := n.value
  lookup := c.lookup

end Context

end View

end ContentTree
