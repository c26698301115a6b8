import ContentTree.Json.Record
import ContentTree.Node.Basic
import ContentTree.Text.Blank
import ContentTree.Text.Search

/-!
# Principals and access

A principal is whoever reads or changes a tree. Access is decided per node by a policy, which may
look at the whole node.

## Main definitions

* `Principal`: nobody in particular, a user, or an administrator.
* `Principal.ofText`: the principal a text names.
* `Access`: a policy for reading and writing; `Access.unrestricted` and `Access.byGrants`.
-/

namespace ContentTree

/-- Whoever reads or changes a tree. -/
inductive Principal
  | anonymous
  | user (name : String) (admin : Bool)
deriving DecidableEq

namespace Principal

/-- The name of a user. -/
def name? : Principal → Option String
  | anonymous => none
  | user name _ => some name

/-- Whether the principal is nobody in particular. -/
def isAnonymous : Principal → Bool
  | anonymous => true
  | user .. => false

/-- Whether the principal is an administrator. -/
def isAdmin : Principal → Bool
  | user _ true => true
  | _ => false

/-- The principal as shown in messages. -/
def text : Principal → String
  | anonymous => "anonymous"
  | user name _ => name

/-- The principal a text names: nobody for an empty text or `anonymous` in any case, an
administrator after `admin:`, and otherwise the user of that name. -/
def ofText (s : String) : Principal :=
  let s := Text.trim s
  if s = "" || Text.lower s = "anonymous" then anonymous
  else
    match Text.after? "admin:".toList s.toList with
    | some name => user (String.ofList name) true
    | none => user s false

/-- A principal as a document. -/
def toJson : Principal → Json
  | anonymous => .object [("kind", .string "anonymous")]
  | user name admin =>
    .object [("kind", .string "user"), ("name", .string name), ("admin", .bool admin)]

/-- The principal a document stands for. -/
def ofJson? (j : Json) : Option Principal := do
  let (word, fields) ← Json.tagged? .strict [] "kind" j
  match word with
  | "anonymous" =>
    match fields with
    | .array (_ :: _) => none
    | _ => return anonymous
  | "user" =>
    let fields ← Json.record? ["name", "admin"] fields
    return user (← Json.required? Json.string? fields "name")
      (← Json.orElse? false Json.bool? fields "admin")
  | _ => none

end Principal

/-- Decides who may read and who may change a node. -/
structure Access where
  canRead : Principal → Node → Bool
  canWrite : Principal → Node → Bool

namespace Access

/-- Everybody may do everything. -/
def unrestricted : Access :=
  ⟨fun _ _ => true, fun _ _ => true⟩

/-- Whether a user owns a node. -/
def isOwner (n : Node) (name : String) : Bool :=
  n.properties.owner = some name

/-- Whether a user has been granted a permission on a node. -/
def isGranted (n : Node) (name : String) (permission : Permission) : Bool :=
  (n.properties.grant? name).any (·.permissions.contains permission)

/-- Administrators may do everything. Others read what is visible to them, and users also what they
own or are granted; only owners and grantees write. -/
def byGrants : Access where
  canRead
    | .anonymous, n => n.properties.visibleToPublic
    | .user _ true, _ => true
    | .user name false, n =>
      n.properties.visibleToUsers || isOwner n name || isGranted n name .read
  canWrite
    | .anonymous, _ => false
    | .user _ true, _ => true
    | .user name false, n => isOwner n name || isGranted n name .write

end Access

end ContentTree
