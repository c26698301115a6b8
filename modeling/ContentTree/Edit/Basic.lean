import ContentTree.Access
import ContentTree.Edit.Draft
import ContentTree.Json.Record
import ContentTree.Tree.Error

/-!
# Edits

An edit changes a draft on behalf of a principal and returns a result or a refusal. A refusal does
not undo what was written before it: an enclosing edit may catch the refusal and go on from the
draft as it is, and only the end of a transaction decides what becomes of the whole.

Every operation first examines the tree and then writes. The examinations are functions of the
editor and the tree, and stand apart from the writes.

## Main definitions

* `SyncedParents`: what happens to a change below a synced node.
* `Editor`, `Edit`: who edits, and edits.
* `Edit.check`, `Edit.write`: the two kinds of steps.
* `Editor.mayWrite`, `Editor.keepsSynced`, `Editor.admits`: examinations.
-/

namespace ContentTree

/-- What happens to a change of the children of a synced node. -/
inductive SyncedParents
  /-- The change is refused. -/
  | reject
  /-- The change is made. -/
  | allow
deriving DecidableEq

/-- The policy a document stands for. -/
def SyncedParents.ofJson? (j : Json) : Option SyncedParents :=
  match Json.word? .strict j with
  | some "reject" => some .reject
  | some "allow" => some .allow
  | _ => none

/-- A policy as a document. -/
def SyncedParents.toJson : SyncedParents → Json
  | reject => .string "reject"
  | allow => .string "allow"

/-- Who edits, and under which policies. -/
structure Editor where
  principal : Principal
  access : Access := .unrestricted
  syncedParents : SyncedParents := .reject

/-- A change of a draft that may be refused. -/
abbrev Edit (α : Type) := ReaderT Editor (ExceptT TreeError (StateM Draft)) α

namespace Edit

/-- The tree as it is now. -/
def tree : Edit Tree := do
  return (← get).tree

/-- Refuses to go on when an examination of the tree does. -/
def check {α : Type} (examine : Editor → Tree → Except TreeError α) : Edit α := do
  match examine (← read) (← tree) with
  | .ok a => return a
  | .error e => throw e

/-- Changes the draft. -/
def write (f : Draft → Draft) : Edit Unit :=
  modify f

/-- Changes the draft and returns the node that the change is about. -/
def writeNode (f : Draft → NodeId × Draft) : Edit NodeId :=
  modifyGet f

end Edit

/-! ### Examinations -/

namespace Tree

variable (t : Tree)

/-- A node that must exist. -/
def require (id : NodeId) : Except TreeError Node :=
  match t.node? id with
  | some n => .ok n
  | none => .error (.unknownNode id)

/-- A node must be able to have children. -/
def requireContainer (parent : NodeId) : Except TreeError Unit := do
  let n ← t.require parent
  if n.kind.acceptsChildren then return () else throw (.unsupported (.children n.kind parent))

/-- A node must be a page. -/
def requirePage (id : NodeId) : Except TreeError Unit := do
  let n ← t.require id
  if n.kind.isPage then return () else throw (.unsupported (.notPage id))

/-- A node other than a page that is neither the parent nor above it can become its child. -/
def requirePlaceable (parent child : NodeId) : Except TreeError Unit := do
  if parent = child then throw (.misplaced (.ownChild child))
  if t.isAncestor child parent then throw (.misplaced (.ancestor child parent))
  let n ← t.require child
  if n.kind.isPage then throw (.misplaced (.page child))

/-- A node may be put into its own document, or into the shadow document. Nodes outside every
document may go anywhere. -/
def requireSameDocument (parent child : NodeId) : Except TreeError Unit :=
  match t.document? parent, t.document? child with
  | some document, some other =>
    if document ≠ other ∧ t.shadow ≠ some document then .error (.foreignDocument child document)
    else .ok ()
  | _, _ => .ok ()

/-- A node must be a child of the given parent. -/
def requireChild (parent child : NodeId) : Except TreeError Unit := do
  let _ ← t.require child
  if t.parent? child = some parent then return () else throw (.notChild parent child)

end Tree

namespace Editor

variable (e : Editor) (t : Tree)

/-- The principal must have write access to a node. -/
def mayWrite (id : NodeId) : Except TreeError Unit := do
  let n ← t.require id
  if e.access.canWrite e.principal n then return ()
  else throw (.denied id (.noWriteAccess e.principal.text))

/-- The children of a synced node stay as they are, unless the policy allows otherwise. -/
def keepsSynced (parent : NodeId) : Except TreeError Unit :=
  if e.syncedParents = .allow ∨ !t.isSynced parent then .ok ()
  else .error (.denied parent .synced)

/-- The same for the parent of a node, if it has one. -/
def keepsSyncedParent (child : NodeId) : Except TreeError Unit :=
  match t.parent? child with
  | some parent => e.keepsSynced t parent
  | none => .ok ()

/-- Whether a node other than a fragment may be put among the children of `parent`, before
`reference` or at the end. -/
def admits (parent child : NodeId) (reference : Option NodeId) : Except TreeError Unit := do
  e.mayWrite t parent
  t.requireContainer parent
  t.requirePlaceable parent child
  t.requireSameDocument parent child
  if let some reference := reference then t.requireChild parent reference
  e.keepsSynced t parent
  if t.parent? child ≠ some parent then e.keepsSyncedParent t child

end Editor

end ContentTree
