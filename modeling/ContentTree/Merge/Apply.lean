import ContentTree.Edit.Document
import ContentTree.Edit.Insert
import ContentTree.Merge.Plan

/-!
# Carrying out merge plans

The operations of a plan are carried out in the order of their priority, all in one transaction. An
operation that makes no sense any more, or that would change the children of a synced node, is
skipped and reported. Any other refusal ends the merge.

Every place is looked up when its operation is carried out, because operations before it may have
created the parent or removed the sibling. When a node cannot be moved before its sibling, the
ancestors of the sibling are tried, up to a limit, and then the end of the list.

## Main definitions

* `Skip`, `Outcome`, `Report`: what became of each operation.
* `Apply.operation`: carries out one operation.
* `Apply.plan`: carries out a plan.
* `Session.merge`: plans and carries out a merge as one transaction.
-/

namespace ContentTree.Merge

/-- Why an operation was skipped. -/
inductive Skip
  /-- The parent does not exist. -/
  | noPosition
  /-- The children of a synced node would change. -/
  | syncedParent
  /-- The node is there already. -/
  | inPlace
  /-- The node does not exist. -/
  | unknownNode
deriving DecidableEq

/-- The wording of a reason. -/
def Skip.text : Skip → String
  | noPosition => "no insert position"
  | syncedParent => "synced parent"
  | inPlace => "already in place"
  | unknownNode => "unknown node"

/-- What became of an operation. -/
inductive Outcome
  | applied
  | skipped (reason : Skip)
deriving DecidableEq

/-- What became of each operation, in the order in which they were carried out. -/
structure Report where
  entries : List (Operation × Outcome) := []

namespace Report

/-- The operations that were carried out. -/
def applied (r : Report) : List Operation :=
  r.entries.filterMap fun entry =>
    match entry.2 with
    | .applied => some entry.1
    | .skipped _ => none

/-- The operations that were skipped, with the reasons. -/
def skipped (r : Report) : List (Operation × Skip) :=
  r.entries.filterMap fun entry =>
    match entry.2 with
    | .applied => none
    | .skipped reason => some (entry.1, reason)

end Report

/-- How a merge is carried out. -/
structure Settings where
  /-- How many nodes are tried on the way from a sibling to the root. -/
  maxAscent : Nat := 10
deriving DecidableEq

namespace Apply

/-- Whether the parent of a node is synced. -/
def belowSynced (t : Tree) (id : NodeId) : Bool :=
  (t.parent? id).any t.isSynced

/-- Tries to put a node before `anchor`, and then before the ancestors of it. The result tells
whether a place was found. -/
def climb (parent id : NodeId) : (attempts : Nat) → (anchor : Option NodeId) → Edit Bool
  | 0, _ => return false
  | _ + 1, none => return false
  | attempts + 1, some anchor => do
    let placed ← tryCatch (do let _ ← Edit.insertBefore parent id (some anchor); return true)
      fun _ => return false
    if placed then return true
    climb parent id attempts ((← Edit.tree).parent? anchor)

/-- Whether a node stands at a position already. -/
def standsAt (t : Tree) (p : Position) (id : NodeId) : Bool :=
  t.parent? id = some p.parent && t.nextSibling? id = p.before

/-- Moves a node to a position. -/
def move (settings : Settings) (p : Position) (id : NodeId) : Edit Outcome := do
  let t ← Edit.tree
  if t.isSynced p.parent then return .skipped .syncedParent
  if standsAt t p id then return .skipped .inPlace
  if !(← climb p.parent id settings.maxAscent p.before) then
    let _ ← Edit.append p.parent id
  return .applied

/-- Adds a node at a position. The sibling it should stand before may have left the parent. -/
def create (p : Position) (content : Content) : Edit NodeId := do
  let id ← Edit.create ((← Edit.tree).document? p.parent) content
  let t ← Edit.tree
  Edit.insertBefore p.parent id (p.before.filter fun s => t.parent? s = some p.parent)

/-- A content with the owner and the grants of a node that is to take it over. -/
def keepOwner (content : Content) (n : Node) : Content :=
  { content with
    properties :=
      { content.properties with owner := n.properties.owner, grants := n.properties.grants } }

/-- Carries out one operation. Created nodes enter the index. -/
def operation (settings : Settings) (index : KeyIndex) :
    Operation → Edit (Outcome × KeyIndex)
  | .delete id => do
    let t ← Edit.tree
    if !t.contains id then return (.skipped .unknownNode, index)
    if belowSynced t id then return (.skipped .syncedParent, index)
    Edit.trash id
    return (.applied, index)
  | .create destination key content => do
    let t ← Edit.tree
    match destination.find? t index with
    | none => return (.skipped .noPosition, index)
    | some p =>
      if t.isSynced p.parent then return (.skipped .syncedParent, index)
      let id ← create p content
      return (.applied, index.insert key id)
  | .move destination key id => do
    let t ← Edit.tree
    match destination.find? t index with
    | none => return (.skipped .noPosition, index)
    | some p =>
      match (id.or index[key]?).filter t.contains with
      | none => return (.skipped .unknownNode, index)
      | some id => return (← move settings p id, index)
  | .update _ id content => do
    let t ← Edit.tree
    match t.node? id with
    | none => return (.skipped .unknownNode, index)
    | some n =>
      if belowSynced t id then return (.skipped .syncedParent, index)
      Edit.update id (keepOwner content n)
      return (.applied, index)

/-- Carries out operations in the given order. -/
def operations (settings : Settings) (index : KeyIndex) :
    List Operation → Edit (List (Operation × Outcome))
  | [] => return []
  | o :: rest => do
    let (outcome, index) ← operation settings index o
    return (o, outcome) :: (← operations settings index rest)

/-- Carries out a plan. -/
def plan (settings : Settings) (p : Plan) : Edit Report := do
  return ⟨← operations settings p.index (Operation.sort p.operations)⟩

end Apply

end ContentTree.Merge

namespace ContentTree

/-- Merges a target into a branch of the tree, as one transaction. -/
def Session.merge (editor : Editor) (settings : Merge.Settings) (root : NodeId) (target : Tree)
    (targetRoot : NodeId) (s : Session) : Except Merge.MergeError Merge.Report × Session :=
  match Merge.plan s.tree root target targetRoot with
  | .error e => (.error e, s)
  | .ok p =>
    match s.run editor (Merge.Apply.plan settings p) with
    | (.ok report, s) => (.ok report, s)
    | (.error e, s) => (.error (.failed e), s)

end ContentTree
