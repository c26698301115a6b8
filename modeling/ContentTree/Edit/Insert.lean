import ContentTree.Edit.Basic

/-!
# Inserting and removing children

A node is put at a place among the children of another and leaves the place it had. In the stead of
a fragment, its children are put there one by one and the fragment remains empty.

## Main definitions

* `Edit.append`, `Edit.insertBefore`: put a node at the end or before another child.
* `Edit.replace`: puts a node in the place of another.
* `Edit.remove`: takes a child out.
-/

namespace ContentTree.Edit

/-- Puts a node other than a fragment into place. -/
def insertOne (parent child : NodeId) (reference : Option NodeId) : Edit Unit := do
  check fun e t => e.admits t parent child reference
  if some child ≠ reference then write (·.place parent child reference)

/-- Puts several nodes into place one after the other. -/
def insertAll (parent : NodeId) (reference : Option NodeId) : List NodeId → Edit Unit
  | [] => pure ()
  | child :: rest => do
    insertOne parent child reference
    insertAll parent reference rest

/-- Puts a node, or the children of a fragment, into place. -/
def insert (parent child : NodeId) (reference : Option NodeId) : Edit Unit := do
  let n ← check fun _ t => t.require child
  if n.kind.isFragment then
    check fun e t => do
      e.mayWrite t parent
      t.requireContainer parent
      if parent = child ∨ t.isAncestor child parent then
        throw (.misplaced (.fragmentAround child parent))
    insertAll parent reference n.children
  else insertOne parent child reference

/-- Puts a node at the end of the children of `parent`. -/
def append (parent child : NodeId) : Edit NodeId := do
  insert parent child none
  return child

/-- Puts a node before `reference`, or at the end. -/
def insertBefore (parent child : NodeId) (reference : Option NodeId) : Edit NodeId := do
  insert parent child reference
  return child

/-- Puts a node where `old` is. The old node leaves its parent but stays in its document. -/
def replace (parent child old : NodeId) : Edit NodeId := do
  check fun e t => do
    e.mayWrite t parent
    t.requireChild parent old
  if child ≠ old then
    insert parent child (some old)
    write (·.detach old)
  return old

/-- Takes a child out of its parent. The node itself stays in its document. -/
def remove (parent child : NodeId) : Edit NodeId := do
  check fun e t => do
    e.mayWrite t parent
    t.requireChild parent child
    e.keepsSynced t parent
  write (·.detach child)
  return child

end ContentTree.Edit
