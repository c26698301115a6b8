import ContentTree.Edit.Basic

/-!
# Copying

A copy has the content of its source without the link, belongs to the acting principal, and is
added to the document of the source. The copy of a page is a page of its own that starts with the
first version.

## Main definitions

* `Content.copied`: the content of a copy.
* `Draft.copy`: adds copies of a branch.
* `Edit.clone`: copies a node, alone or with everything below it.
-/

namespace ContentTree

/-- The content of a copy that belongs to the given owner. -/
def Content.copied (owner : Option String) (c : Content) : Content where
  kind := match c.kind with
    | .page name _ _ => .page name 0 false
    | kind => kind
  properties := { c.properties with owner }
  link := none

namespace Draft

/-- Adds copies of a branch and joins them like their sources. -/
def copy (owner : Option String) : Branch → Draft → NodeId × Draft
  | ⟨n, cs⟩, d =>
    let (id, d) := d.add (n.toContent.copied owner)
    (id, copyChildren id cs d)
where
  copyChildren (parent : NodeId) : List Branch → Draft → Draft
    | [], d => d
    | c :: cs, d =>
      let (id, d) := copy owner c d
      copyChildren parent cs (d.attach parent id (d.tree.children parent).length)

/-- Adds copies of a branch to the document of the source, or to the copy itself where that is a
page. -/
def cloneBranch (owner : Option String) (b : Branch) (d : Draft) : NodeId × Draft :=
  let (id, d) := copy owner b d
  (id, d.setDocument id (if b.node.kind.isPage then some id else b.node.document))

end Draft

namespace Edit

/-- Copies a node, and with `deep` everything below it. -/
def clone (id : NodeId) (deep : Bool) : Edit NodeId := do
  let n ← check fun _ t => t.require id
  let owner := (← read).principal.name?
  let t ← tree
  let branch := if deep then (t.branch? id).getD ⟨n, []⟩ else ⟨n, []⟩
  writeNode (Draft.cloneBranch owner branch)

end Edit

end ContentTree
