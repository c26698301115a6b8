import ContentTree.Tree.Sharing

/-!
# Trees

A tree is a table of nodes, the relation of shared components and mirrors, the highest identifier
given out so far, and the page that owns shared components. Relations between nodes are read off
the records: a node names its parent and its children, and knows its index among its siblings.

## Main definitions

* `Tree`, `Tree.node?`: trees and their nodes.
* `parent?`, `children`, `nextSibling?`, `previousSibling?`: neighbours.
* `ancestors`, `isAncestor`, `closest?`: the way to the root.
* `closestPage?`, `closestComponent?`: what encloses a node.
* `positionPath`, `namePath`: the place of a node as text.
* `inTrash`, `isShared`: nodes outside every document, and nodes of the shadow document.
-/

namespace ContentTree

/-- A tree of nodes. -/
structure Tree where
  nodes : Std.ExtTreeMap NodeId Node := ∅
  sharing : Sharing := {}
  /-- The highest identifier in use so far. -/
  lastId : NodeId := 0
  /-- The page that owns shared components. -/
  shadow : Option NodeId := none

namespace Tree

variable (t : Tree)

/-- The node with a given identifier. -/
def node? (id : NodeId) : Option Node :=
  t.nodes[id]?

/-- Whether a node exists. -/
def contains (id : NodeId) : Bool :=
  t.nodes.contains id

/-- How many nodes there are. -/
def size : Nat :=
  t.nodes.size

/-- The identifiers of all nodes in ascending order. -/
def ids : List NodeId :=
  t.nodes.keys

/-- The pages in ascending order, the shadow page excepted. -/
def pages : List NodeId :=
  t.nodes.toList.filterMap fun (id, n) =>
    if n.kind.isPage && n.parent.isNone && t.shadow ≠ some id then some id else none

/-! ### Neighbours -/

/-- The parent of a node. -/
def parent? (id : NodeId) : Option NodeId :=
  (t.node? id).bind Node.parent

/-- The children of a node in their order. -/
def children (id : NodeId) : List NodeId :=
  match t.node? id with
  | some n => n.children
  | none => []

/-- The sibling just before a node. -/
def previousSibling? (id : NodeId) : Option NodeId := do
  let n ← t.node? id
  let parent ← n.parent
  if n.position = 0 then none else (t.children parent)[n.position - 1]?

/-- The sibling just after a node. -/
def nextSibling? (id : NodeId) : Option NodeId := do
  let n ← t.node? id
  let parent ← n.parent
  (t.children parent)[n.position + 1]?

/-- The page a node belongs to; a page belongs to itself. -/
def document? (id : NodeId) : Option NodeId :=
  (t.node? id).bind Node.owningPage

/-! ### The way to the root -/

/-- At most `fuel` nodes on the way up, beginning with the given one. -/
def upFrom : (fuel : Nat) → Option NodeId → List NodeId
  | 0, _ => []
  | _ + 1, none => []
  | fuel + 1, some id => id :: upFrom fuel (t.parent? id)

/-- The ancestors of a node, parent first. No way up is longer than the table. -/
def ancestors (id : NodeId) : List NodeId :=
  t.upFrom t.size (t.parent? id)

/-- Whether a node is an ancestor of another. -/
def isAncestor (ancestor id : NodeId) : Bool :=
  (t.ancestors id).contains ancestor

/-- The first node with a property on the way up, the node itself included. -/
def closest? (p : Node → Bool) (id : NodeId) : Option NodeId := do
  let n ← t.node? id
  if p n then some id
  else (t.ancestors id).find? fun a => (t.node? a).any p

/-- The page that encloses a node, or else the page it belongs to. -/
def closestPage? (id : NodeId) : Option NodeId :=
  (t.closest? (·.kind.isPage) id).or (t.document? id)

/-- The component that encloses a node. Where it belongs to another page, its first mirror on the
given page stands for it. -/
def closestComponent? (id page : NodeId) : Option NodeId := do
  let component ← t.closest? (·.kind.isComponent) id
  if t.document? component = some page then some component
  else
    ((t.sharing.mirrorsOf component).find? fun m => t.document? m = some page).or (some component)

/-! ### Places as text -/

/-- The indices among siblings from the root down to a node, as in `/0/2/1`. -/
def positionPath (id : NodeId) : String :=
  let below := (id :: t.ancestors id).filterMap fun a =>
    (t.node? a).bind fun n => n.parent.map fun _ => n.position
  String.join (below.reverse.map fun position => "/" ++ Nat.repr position)

/-- The names from the root down to a node, as in `/home/nav`. -/
def namePath (id : NodeId) : String :=
  let names := (id :: t.ancestors id).filterMap fun a => (t.node? a).map Node.contextName
  String.join (names.reverse.map ("/" ++ ·))

/-! ### Standing of a node -/

/-- Whether a node is a mirror or a mirrored component. -/
def isSynced (id : NodeId) : Bool :=
  t.sharing.isSynced id

/-- Whether a node belongs to the shadow document. -/
def isShared (id : NodeId) : Bool :=
  match t.shadow, t.node? id with
  | some shadow, some n => n.document = some shadow
  | _, _ => false

/-- Whether a node other than a page has neither a parent nor a document. -/
def inTrash (id : NodeId) : Bool :=
  match t.node? id with
  | some n => !n.kind.isPage && n.parent.isNone && n.document.isNone
  | none => false

end Tree

end ContentTree
