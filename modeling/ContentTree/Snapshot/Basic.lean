import ContentTree.Tree.Branch

/-!
# Snapshots

A snapshot is a branch outside any tree, as it is kept in documents. Its nodes may carry the
identifiers they had, and refer to shared components by identifier.

## Main definitions

* `Snapshot`, `Snapshot.ofBranch`: snapshots, and that of a branch.
* `Tree.export?`: the snapshot of a node of a tree.
-/

namespace ContentTree

/-- A node outside any tree, with everything below it. -/
inductive Snapshot
  | mk (id : Option NodeId) (content : Content) (component : Option NodeId)
      (children : List Snapshot)

namespace Snapshot

/-- The identifier the root had. -/
def id? : Snapshot → Option NodeId
  | mk id _ _ _ => id

/-- The content of the root. -/
def content : Snapshot → Content
  | mk _ content _ _ => content

/-- The shared component that the root mirrors. -/
def component? : Snapshot → Option NodeId
  | mk _ _ component _ => component

/-- The snapshots of the children. -/
def children : Snapshot → List Snapshot
  | mk _ _ _ children => children

/-- The snapshot of a branch, with all identifiers. -/
def ofBranch : Branch → Snapshot
  | ⟨n, cs⟩ => mk (some n.id) n.toContent n.component (ofBranches cs)
where
  ofBranches : List Branch → List Snapshot
    | [] => []
    | c :: cs => ofBranch c :: ofBranches cs

mutual

/-- Whether two snapshots agree in everything. -/
def same : Snapshot → Snapshot → Bool
  | mk id content component children, mk id' content' component' children' =>
    id = id' && content = content' && component = component' && sameAll children children'

/-- Whether two lists of snapshots agree in everything. -/
def sameAll : List Snapshot → List Snapshot → Bool
  | [], [] => true
  | s :: ss, s' :: ss' => same s s' && sameAll ss ss'
  | _, _ => false

end

end Snapshot

/-- The snapshot of a node, or nothing where there is no such node. -/
def Tree.export? (t : Tree) (root : NodeId) : Option Snapshot :=
  (t.branch? root).map Snapshot.ofBranch

end ContentTree
