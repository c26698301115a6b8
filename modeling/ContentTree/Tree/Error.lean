import ContentTree.Node.Basic

/-!
# Refusals of the tree

Why a change of a tree was refused. Every cause has its own constructor, and the wording is in the
functions named `message`.

## Main definitions

* `Misplacement`, `Unsupported`, `Denial`: the causes by group.
* `TreeError`: all refusals, with `TreeError.message`.
-/

namespace ContentTree

/-- Placements that would break the shape of a tree. -/
inductive Misplacement
  /-- A node would become its own child. -/
  | ownChild (child : NodeId)
  /-- A node would become a child of one of its descendants. -/
  | ancestor (child parent : NodeId)
  /-- A page would become a child. -/
  | page (child : NodeId)
  /-- A fragment would be spread out inside itself. -/
  | fragmentAround (fragment parent : NodeId)
  /-- A page stands below another node in a snapshot. -/
  | pageBelow (parent : NodeId)
  /-- A node would mirror itself. -/
  | ownMirror (mirror : NodeId)
deriving DecidableEq

/-- The wording of a misplacement. -/
def Misplacement.message : Misplacement → String
  | ownChild child => s!"{child.text} cannot be its own child"
  | ancestor child parent => s!"{child.text} is an ancestor of {parent.text}"
  | page child => s!"page {child.text} cannot be inserted as a child"
  | fragmentAround fragment parent => s!"fragment {fragment.text} contains {parent.text}"
  | pageBelow parent => s!"page cannot be a child of {parent.text}"
  | ownMirror mirror => s!"{mirror.text} cannot mirror itself"

/-- Changes that make no sense for the nodes they are asked for. -/
inductive Unsupported
  /-- A node that cannot have children would get some. -/
  | children (kind : Kind) (parent : NodeId)
  /-- A page is needed. -/
  | notPage (id : NodeId)
  /-- A page would move into another page. -/
  | adoptPage (id : NodeId)
  /-- A page would go to the trash. -/
  | trashPage (id : NodeId)
  /-- A node would become a node of another kind. -/
  | changeKind (old : Kind) (id : NodeId) (new : Kind)
  /-- A node would mirror a node of another kind. -/
  | mirrorKind (mirror component : Kind)
  /-- A mirror would be mirrored itself. -/
  | chain (mirror component : NodeId)
  /-- A node that is already shared would be shared again. -/
  | alreadySynced (id : NodeId)
  /-- A page would become a shared component. -/
  | sharePage (id : NodeId)
  /-- The caller gave up for a reason of its own. -/
  | requested (reason : String)
deriving DecidableEq

/-- The wording of an unsupported change. -/
def Unsupported.message : Unsupported → String
  | children kind parent => s!"{kind.word} node {parent.text} cannot have children"
  | notPage id => s!"{id.text} is not a page"
  | adoptPage id => s!"page {id.text} cannot be adopted"
  | trashPage id => s!"page {id.text} cannot be trashed"
  | changeKind old id new => s!"cannot change {old.word} node {id.text} into {new.word}"
  | mirrorKind mirror component =>
    s!"{mirror.word} node cannot mirror a {component.word} node"
  | chain mirror component => s!"sync chain through {mirror.text} or {component.text}"
  | alreadySynced id => s!"{id.text} is already synced"
  | sharePage id => s!"page {id.text} cannot become a shared component"
  | requested reason => reason

/-- Why a node may not be changed. -/
inductive Denial
  /-- The principal, named as displayed, may not write. -/
  | noWriteAccess (principal : String)
  /-- The node takes part in a relation of shared components. -/
  | synced
deriving DecidableEq

/-- The wording of a denial. -/
def Denial.message : Denial → String
  | noWriteAccess principal => s!"{principal} has no write access"
  | synced => "node is part of a shared component relation"

/-- The refusals of a tree. -/
inductive TreeError
  | misplaced (cause : Misplacement)
  /-- A node belongs to another document than the one it would be put into. -/
  | foreignDocument (node document : NodeId)
  | notChild (parent child : NodeId)
  | denied (node : NodeId) (cause : Denial)
  | unsupported (cause : Unsupported)
  | unknownNode (id : NodeId)
deriving DecidableEq

/-- The wording of a refusal. -/
def TreeError.message : TreeError → String
  | misplaced cause => s!"Hierarchy violation: {cause.message}"
  | foreignDocument node document =>
    s!"Node {node.text} belongs to a different document than {document.text}"
  | notChild parent child => s!"Node {child.text} is not a child of {parent.text}"
  | denied node cause => s!"Modification of {node.text} not allowed: {cause.message}"
  | unsupported cause => s!"Not supported: {cause.message}"
  | unknownNode id => s!"Node not found: {id.text}"

end ContentTree
