import ContentTree.Edit.Copy

/-!
# Nodes and documents

Nodes are added to a document, move into another, are changed in their content, and go to the trash,
where they belong to no document.

## Main definitions

* `Edit.create`: adds a node.
* `Edit.adopt`, `Edit.importNode`: a node, or a copy of it, moves into another document.
* `Edit.update`: gives a node another content.
* `Edit.trash`: takes a node out of its document.
-/

namespace ContentTree.Edit

/-- Adds a node that belongs to the acting principal. Nodes other than pages belong to the given
document, if there is one. -/
def create (document : Option NodeId) (content : Content) : Edit NodeId := do
  if let some page := document then
    if !content.kind.isPage then
      check fun e t => do
        t.requirePage page
        e.mayWrite t page
  let owner := (← read).principal.name?
  writeNode fun d =>
    let (id, d) := d.add { content with properties := { content.properties with owner } }
    (id, if content.kind.isPage then d else d.setDocument id document)

/-- Takes a node out of its place and moves its branch into the document of `page`. -/
def adopt (page id : NodeId) : Edit NodeId := do
  check fun e t => do
    t.requirePage page
    e.mayWrite t page
    let n ← t.require id
    if n.kind.isPage then throw (.unsupported (.adoptPage id))
    e.keepsSyncedParent t id
  write fun d => (d.detach id).setDocument id (some page)
  return id

/-- Copies a node, and with `deep` everything below it, into the document of `page`. -/
def importNode (page id : NodeId) (deep : Bool) : Edit NodeId := do
  check fun _ t => t.requirePage page
  let copied ← clone id deep
  adopt page copied

/-- Takes a node out of its place and its branch out of every document. -/
def trash (id : NodeId) : Edit Unit := do
  check fun e t => do
    let n ← t.require id
    if n.kind.isPage then throw (.unsupported (.trashPage id))
    match t.parent? id with
    | some parent =>
      e.mayWrite t parent
      e.keepsSynced t parent
    | none => e.mayWrite t id
  write (·.discard id)

/-- Gives a node another content of the same kind. -/
def update (id : NodeId) (content : Content) : Edit Unit := do
  check fun e t => do
    e.mayWrite t id
    let n ← t.require id
    if !n.kind.same content.kind then
      throw (.unsupported (.changeKind n.kind id content.kind))
  write (·.setContent id content)

end ContentTree.Edit
