import ContentTree.Tree.Branch

/-!
# Drafts

A draft is a tree that is being changed, together with a journal of what every node was before it
was first written. All changes of a tree are made of the few writes below, and each of them enters
the journal first. The journal says which nodes were touched, and takes a draft back to the tree it
started from.

Writes check nothing. Where a node is missing they do nothing.

## Main definitions

* `Journal`, `Draft`, `Draft.start`: drafts and their beginning.
* `add`, `attach`, `detach`, `setDocument`, `setContent`, `link`, `unlink`: writes.
* `place`: puts a node into a list of children.
* `touched`, `undo`: the nodes written, and the way back.
-/

namespace ContentTree

/-- What the touched nodes and the rest of the tree were at the beginning. -/
structure Journal where
  /-- Each touched node as it was, or nothing where there was none. -/
  earlier : Std.ExtTreeMap NodeId (Option Node) := ∅
  sharing : Sharing
  lastId : NodeId
  shadow : Option NodeId

/-- A tree that is being changed. -/
structure Draft where
  tree : Tree
  journal : Journal

namespace Draft

/-- A draft of a tree without any change. -/
def start (t : Tree) : Draft :=
  ⟨t, { sharing := t.sharing, lastId := t.lastId, shadow := t.shadow }⟩

/-- The touched nodes in ascending order. -/
def touched (d : Draft) : List NodeId :=
  d.journal.earlier.keys

/-- The tree at the beginning, restored from the journal. -/
def undo (d : Draft) : Tree where
  nodes := d.journal.earlier.foldl
    (fun nodes id before =>
      match before with
      | some n => nodes.insert id n
      | none => nodes.erase id)
    d.tree.nodes
  sharing := d.journal.sharing
  lastId := d.journal.lastId
  shadow := d.journal.shadow

/-! ### Writes -/

/-- Enters a node into the journal, unless it is there already. -/
def touch (d : Draft) (id : NodeId) : Draft :=
  { d with
    journal :=
      { d.journal with earlier := d.journal.earlier.insertIfNew id (d.tree.node? id) } }

/-- Writes a node under its identifier. -/
def put (d : Draft) (n : Node) : Draft :=
  let d := d.touch n.id
  { d with tree := { d.tree with nodes := d.tree.nodes.insert n.id n } }

/-- Changes a node that exists. -/
def modify (d : Draft) (id : NodeId) (f : Node → Node) : Draft :=
  match d.tree.node? id with
  | some n => d.put (f n)
  | none => d

/-- Adds a node with the given identifier and no place. -/
def addAt (d : Draft) (id : NodeId) (content : Content) : Draft :=
  let d := d.put (Node.ofContent id content)
  { d with tree := { d.tree with lastId := max d.tree.lastId id } }

/-- The identifier of the next node. -/
def nextId (d : Draft) : NodeId :=
  d.tree.lastId + 1

/-- Adds a node with a new identifier and no place. -/
def add (d : Draft) (content : Content) : NodeId × Draft :=
  (d.nextId, d.addAt d.nextId content)

/-- Writes the index of every child of `parent` from the index `first` on. -/
def renumber (d : Draft) (parent : NodeId) (first : Nat) : Draft :=
  ((d.tree.children parent).zipIdx.drop first).foldl
    (fun d child => d.modify child.1 ({ · with position := child.2 })) d

/-- Puts a node without a parent among the children of `parent`, at an index or at the end. -/
def attach (d : Draft) (parent child : NodeId) (index : Nat) : Draft :=
  let index := min index (d.tree.children parent).length
  let d := d.modify parent fun n => { n with children := n.children.insertIdx index child }
  let d := d.modify child ({ · with parent := some parent })
  d.renumber parent index

/-- Takes a node out of the children of its parent. -/
def detach (d : Draft) (child : NodeId) : Draft :=
  match d.tree.parent? child with
  | none => d
  | some parent =>
    let index := (d.tree.children parent).idxOf child
    let d := d.modify parent fun n => { n with children := n.children.eraseIdx index }
    let d := d.modify child ({ · with parent := none, position := 0 })
    d.renumber parent index

/-- Assigns a node and everything below it to a document. Pages keep belonging to themselves. -/
def setDocument (d : Draft) (root : NodeId) (document : Option NodeId) : Draft :=
  (d.tree.branchNodes root).foldl
    (fun d n => d.modify n.id fun n => if n.kind.isPage then n else { n with document }) d

/-- Gives a node another content. A page keeps its version. -/
def setContent (d : Draft) (id : NodeId) (content : Content) : Draft :=
  d.modify id fun n =>
    let kind := match n.kind.version? with
      | some version => content.kind.withVersion version
      | none => content.kind
    { n with toContent := { content with kind } }

/-- Raises the version of a page by one. -/
def bumpVersion (d : Draft) (page : NodeId) : Draft :=
  d.modify page fun n =>
    match n.kind.version? with
    | some version => { n with kind := n.kind.withVersion (version + 1) }
    | none => n

/-- A node mirrors a component from now on. The component and the one mirrored before count as
touched. -/
def link (d : Draft) (mirror component : NodeId) : Draft :=
  let previous := d.tree.sharing.componentOf mirror
  let d := { d with tree := { d.tree with sharing := d.tree.sharing.link mirror component } }
  let d := match previous with
    | some previous => d.touch previous
    | none => d
  (d.touch component).modify mirror ({ · with component := some component })

/-- A node ceases to mirror its component, which counts as touched. -/
def unlink (d : Draft) (mirror : NodeId) : Draft :=
  let previous := d.tree.sharing.componentOf mirror
  let d := { d with tree := { d.tree with sharing := d.tree.sharing.unlink mirror } }
  let d := match previous with
    | some previous => d.touch previous
    | none => d
  d.modify mirror ({ · with component := none })

/-- Declares a page to be the shadow page. -/
def setShadow (d : Draft) (page : NodeId) : Draft :=
  { d with tree := { d.tree with shadow := some page } }

/-! ### Compound writes -/

/-- The name of the page that owns shared components. -/
def shadowName : String := "__shadow__"

/-- The shadow page, added where there is none yet. -/
def ensureShadow (d : Draft) : NodeId × Draft :=
  match d.tree.shadow with
  | some page => (page, d)
  | none =>
    let (page, d) := d.add { kind := .page shadowName 0 true }
    (page, d.setShadow page)

/-- Puts a node before `reference` among the children of `parent`, or at the end, wherever it was
before. Its branch moves into the document of the parent. -/
def place (d : Draft) (parent child : NodeId) (reference : Option NodeId) : Draft :=
  let d := d.detach child
  let index := match reference.bind d.tree.node? with
    | some n => n.position
    | none => (d.tree.children parent).length
  let d := d.attach parent child index
  let document := d.tree.document? parent
  if d.tree.document? child = document then d else d.setDocument child document

/-- Takes a node out of its place and its branch out of every document. -/
def discard (d : Draft) (id : NodeId) : Draft :=
  (d.detach id).setDocument id none

end Draft

end ContentTree
