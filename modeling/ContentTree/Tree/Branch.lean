import ContentTree.Tree.Basic

/-!
# Branches

A branch is a node together with the branches of its children: what can be seen of a tree from one
node downwards, as a value of its own. Everything that looks at a whole subtree works on its branch
by recursion.

## Main definitions

* `Branch`, `Tree.branch?`: branches, and the branch of a node.
* `Branch.nodes`: all nodes of a branch in document order.
* `Branch.visible`: those that are not inside a text.
* `Tree.descendants`, `Tree.textContent`, `Tree.kindCounts`: readings of a branch.
-/

namespace ContentTree

/-- A node with the branches of its children. -/
inductive Branch
  | mk (node : Node) (children : List Branch)

namespace Branch

/-- The node at the root of a branch. -/
def node : Branch → Node
  | mk n _ => n

/-- The branches of the children. -/
def children : Branch → List Branch
  | mk _ cs => cs

/-- The identifier of the root. -/
def id (b : Branch) : NodeId := b.node.id

/-- The content of the root. -/
def content (b : Branch) : Content := b.node.toContent

/-- All nodes of a branch in document order. -/
def nodes : Branch → List Node
  | mk n cs => n :: listNodes cs
where
  listNodes : List Branch → List Node
    | [] => []
    | c :: cs => c.nodes ++ listNodes cs

/-- All nodes of several branches in document order. -/
abbrev allNodes (bs : List Branch) : List Node := nodes.listNodes bs

/-- The nodes below the root in document order. -/
def inner (b : Branch) : List Node :=
  allNodes b.children

/-- The identifiers of a branch in document order. -/
def ids (b : Branch) : List NodeId :=
  b.nodes.map (·.id)

/-- The nodes of a branch in document order, without those inside a text. -/
def visible : Branch → List Node
  | mk n cs => n :: if n.kind.isText then [] else listVisible cs
where
  listVisible : List Branch → List Node
    | [] => []
    | c :: cs => c.visible ++ listVisible cs

end Branch

namespace Tree

variable (t : Tree)

/-- The branch of a node, no deeper than `fuel` levels. -/
def branchWithin : (fuel : Nat) → NodeId → Option Branch
  | 0, _ => none
  | fuel + 1, id => (t.node? id).map fun n => ⟨n, n.children.filterMap (branchWithin fuel)⟩

/-- The branch of a node. No branch is deeper than the table is large. -/
def branch? (id : NodeId) : Option Branch :=
  t.branchWithin t.size id

/-- The nodes of the branch of a node in document order. -/
def branchNodes (id : NodeId) : List Node :=
  match t.branch? id with
  | some b => b.nodes
  | none => []

/-- The identifiers below a node in document order. -/
def descendants (id : NodeId) : List NodeId :=
  match t.branch? id with
  | some b => b.inner.map (·.id)
  | none => []

/-- The nodes of the branch of a node in document order, without those inside a text. -/
def visibleNodes (id : NodeId) : List Node :=
  match t.branch? id with
  | some b => b.visible
  | none => []

/-- The contents of all texts at and below a node. -/
def textContent (id : NodeId) : String :=
  String.join ((t.visibleNodes id).filterMap (·.kind.textContent?))

/-- How many nodes of each kind there are at and below a node, by the word for the kind. -/
def kindCounts (id : NodeId) : Std.ExtTreeMap String Nat :=
  (t.visibleNodes id).foldl
    (fun counts n => counts.alter n.kind.word fun k => some (k.getD 0 + 1)) ∅

end Tree

end ContentTree
