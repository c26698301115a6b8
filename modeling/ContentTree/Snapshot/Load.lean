import ContentTree.Edit.Draft
import ContentTree.Snapshot.Basic
import ContentTree.Tree.Error

/-!
# Loading snapshots

A snapshot becomes a branch of a tree, outside of any transaction and without regard to access. An
identifier is kept where it is free. A page owns everything below it, and any other root belongs to
no document. References to shared components are resolved once all nodes are there; when loading
fails, the nodes added so far remain.

## Main definitions

* `Loading.snapshot`: adds the nodes of a snapshot.
* `Tree.load`: loads a snapshot into a tree.
* `Tree.ofSnapshots`: a tree from several snapshots, loaded in order.
-/

namespace ContentTree

/-- A step of loading, which leaves a draft also when it fails. -/
abbrev Loading (α : Type) := ExceptT TreeError (StateM Draft) α

namespace Loading

/-- Adds the nodes of a snapshot. The result is the new root and the references to shared components
in document order. -/
def nodes : Snapshot → Loading (NodeId × List (NodeId × NodeId))
  | .mk id content component inner => do
    let d ← get
    let (id, d) := match id with
      | some id => if d.tree.contains id then d.add content else (id, d.addAt id content)
      | none => d.add content
    set d
    let own := match component with
      | some component => [(id, component)]
      | none => []
    return (id, own ++ (← children id 0 inner))
where
  children (parent : NodeId) (index : Nat) : List Snapshot → Loading (List (NodeId × NodeId))
    | [] => return []
    | s :: ss => do
      if s.content.kind.isPage then throw (.misplaced (.pageBelow parent))
      let (child, inner) ← nodes s
      modify fun (d : Draft) => d.attach parent child index
      return inner ++ (← children parent (index + 1) ss)

/-- Lets mirrors refer to components that must exist. -/
def references : List (NodeId × NodeId) → Loading Unit
  | [] => return ()
  | (mirror, component) :: rest => do
    if !(← get).tree.contains component then throw (.unknownNode component)
    modify fun (d : Draft) => d.link mirror component
    references rest

/-- Adds a snapshot, with documents and references. -/
def snapshot (s : Snapshot) : Loading NodeId := do
  let (root, pending) ← nodes s
  match s.content.kind with
  | .page _ _ shadow =>
    if shadow then modify fun (d : Draft) => d.setShadow root
    modify fun (d : Draft) => d.setDocument root (some root)
  | _ => modify fun (d : Draft) => d.setDocument root none
  references pending
  return root

end Loading

namespace Tree

/-- Loads a snapshot into a tree. -/
def load (t : Tree) (s : Snapshot) : Except TreeError NodeId × Tree :=
  let (result, d) := (Loading.snapshot s).run (Draft.start t)
  (result, d.tree)

/-- Loads snapshots in order, up to the first that fails. -/
def loadAll (t : Tree) : List Snapshot → Except TreeError Tree
  | [] => .ok t
  | s :: ss =>
    match t.load s with
    | (.ok _, t) => t.loadAll ss
    | (.error e, _) => .error e

/-- The tree of several snapshots, loaded in order. A snapshot can refer to the shared components of
those before it. -/
def ofSnapshots (snapshots : List Snapshot) : Except TreeError Tree :=
  loadAll {} snapshots

end Tree

end ContentTree
