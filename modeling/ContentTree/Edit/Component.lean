import ContentTree.Edit.Copy

/-!
# Sharing components

A node becomes shared by copying it into the shadow document and mirroring the copy. Mirrors are
never mirrored themselves, so that a chain never arises.

## Main definitions

* `Edit.link`, `Edit.unlink`: a node starts or ceases to mirror a component.
* `Edit.share`: makes a shared component of a node.
-/

namespace ContentTree.Edit

/-- A node mirrors a component of its kind from now on. -/
def link (mirror component : NodeId) : Edit Unit := do
  check fun e t => do
    e.mayWrite t mirror
    let m ← t.require mirror
    let c ← t.require component
    if mirror = component then throw (.misplaced (.ownMirror mirror))
    if !m.kind.same c.kind then throw (.unsupported (.mirrorKind m.kind c.kind))
    if (t.sharing.componentOf component).isSome || t.sharing.hasMirrors mirror then
      throw (.unsupported (.chain mirror component))
  write (·.link mirror component)

/-- A node ceases to mirror its component, which is the result. -/
def unlink (mirror : NodeId) : Edit (Option NodeId) := do
  check fun e t => e.mayWrite t mirror
  let component := (← tree).sharing.componentOf mirror
  write (·.unlink mirror)
  return component

/-- Copies a branch to the end of the shadow document and lets its source mirror the copy. -/
def shareBranch (owner : Option String) (b : Branch) (d : Draft) : NodeId × Draft :=
  let (shadow, d) := d.ensureShadow
  let (component, d) := d.cloneBranch owner b
  let d := d.attach shadow component (d.tree.children shadow).length
  let d := d.setDocument component (some shadow)
  (component, d.link b.id component)

/-- Makes a shared component of a node, which becomes its first mirror. -/
def share (id : NodeId) : Edit NodeId := do
  let n ← check fun e t => do
    e.mayWrite t id
    if t.isSynced id then throw (.unsupported (.alreadySynced id))
    let n ← t.require id
    if n.kind.isPage then throw (.unsupported (.sharePage id))
    return n
  let owner := (← read).principal.name?
  let t ← tree
  writeNode (shareBranch owner ((t.branch? id).getD ⟨n, []⟩))

end ContentTree.Edit
