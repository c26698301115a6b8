import ContentTree.Edit.Basic

/-!
# Joining texts

Where texts stand side by side, the first takes over the contents of those that follow it and the
others go to the trash. Nodes outside every document are left alone.

## Main definitions

* `Edit.joinRuns`: joins the runs of texts in one list of children.
* `Edit.normalize`: joins all runs of texts at and below a node.
-/

namespace ContentTree.Edit

/-- A child in the list being joined: whether it is a text, and what remains to be done below it. -/
structure Sibling where
  id : NodeId
  isText : Bool
  inner : Edit Unit

/-- The first of two texts takes over the content of the second, which goes to the trash. -/
def joinTexts (parent first second : NodeId) : Edit Unit := do
  let content ← check fun e t => do
    let head ← t.require first
    let tail ← t.require second
    e.mayWrite t parent
    e.keepsSynced t parent
    let kind := match head.kind, tail.kind with
      | .text start contentType, .text rest _ => .text (start ++ rest) contentType
      | kind, _ => kind
    return { head.toContent with kind }
  write fun d => (d.setContent first content).discard second

/-- Joins the runs of texts among `current` and the children after it. What remains to be done below
a child is done once its run has ended. -/
def joinRuns (parent : NodeId) (current : Sibling) : List Sibling → Edit Unit
  | [] => current.inner
  | next :: rest => do
    if current.isText && next.isText then
      joinTexts parent current.id next.id
      joinRuns parent current rest
    else
      current.inner
      joinRuns parent next rest

/-- Joins the runs of texts in a list of children. -/
def joinChildren (parent : NodeId) : List Sibling → Edit Unit
  | [] => pure ()
  | first :: rest => joinRuns parent first rest

/-- Joins all runs of texts in a branch. -/
def normalizeBranch : Branch → Edit Unit
  | ⟨n, cs⟩ => do
    if ((← tree).document? n.id).isSome then joinChildren n.id (siblings cs)
where
  siblings : List Branch → List Sibling
    | [] => []
    | c :: cs => ⟨c.id, c.node.kind.isText, normalizeBranch c⟩ :: siblings cs

/-- Joins all runs of texts at and below a node. -/
def normalize (id : NodeId) : Edit Unit := do
  match (← tree).branch? id with
  | some b => normalizeBranch b
  | none => pure ()

end ContentTree.Edit
