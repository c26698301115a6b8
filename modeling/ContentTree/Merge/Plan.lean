import ContentTree.Edit.Basic
import ContentTree.Merge.Pairing
import ContentTree.Session

/-!
# Merge plans

A plan is the list of operations that turns an existing branch into a target, together with the
existing nodes by the keys of their partners. It follows from the pairing alone:

* existing nodes without a partner are deleted, the topmost ones standing for all below them;
* target nodes without a partner are created;
* where the partners of a list of children do not already stand in order, every child is moved, the
  last first, so that the sibling it goes before is in place by then;
* nodes whose content differs from that of their partner are updated.

## Main definitions

* `Plan`, `KeyIndex`: plans, and nodes by key.
* `Destination.find?`: the place in a tree that a destination stands for.
* `Plan.ofPairing`: the plan of a pairing.
* `MergeError`, `plan`: why there is no plan, and the plan for two nodes of two trees.
-/

namespace ContentTree.Merge

/-- Existing nodes by the keys of their partners. -/
abbrev KeyIndex := Std.ExtTreeMap BranchKey NodeId

/-- What has to be done, and the existing nodes by key. -/
structure Plan where
  operations : List Operation
  index : KeyIndex

/-- A place in a tree: before a node, or at the end of the children of `parent`. -/
structure Position where
  parent : NodeId
  before : Option NodeId
deriving DecidableEq

/-- The place a destination stands for: before the nearest following sibling that exists. There is
none where the parent does not exist. -/
def Destination.find? (t : Tree) (index : KeyIndex) (d : Destination) : Option Position := do
  let parent ← index[d.parent]?
  if t.contains parent then
    some ⟨parent, (d.followers.filterMap (index[·]?)).find? t.contains⟩
  else none

namespace Plan

/-- The creations for a pairing, parents first. -/
def creates : Pairing → List Operation
  | .same .. => []
  | .alike key _ _ children => createsBelow key children
  | .fresh key _ children => createsBelow key children
where
  createsBelow (parent : BranchKey) : List Pairing → List Operation
    | [] => []
    | p :: ps =>
      let own := match p with
        | .fresh key content _ => [.create ⟨parent, ps.map Pairing.key⟩ key content]
        | _ => []
      own ++ creates p ++ createsBelow parent ps

/-- A move for each of several siblings, the last first. -/
def movesOf (parent : BranchKey) : List Pairing → List Operation
  | [] => []
  | p :: ps => movesOf parent ps ++ [.move ⟨parent, ps.map Pairing.key⟩ p.key p.partner?]

/-- Whether the partners of several siblings already stand in order, given the claimed children of
the partner of their parent. Siblings that are all to be created will be created in order. -/
def inOrder (children : List Pairing) : Option (List NodeId) → Bool
  | some current => children.isEmpty || children.map Pairing.partner? = current.map some
  | none => children.all (·.partner?.isNone)

/-- The moves for a pairing, those of a parent before those below it. -/
def moves (claimed : Pairing.Claimed) : Pairing → List Operation
  | .same .. => []
  | .alike key _ existing children =>
    let current := (existing.children.map Branch.id).filter claimed.contains
    (if inOrder children (some current) then [] else movesOf key children) ++
      movesBelow children
  | .fresh key _ children =>
    (if inOrder children none then [] else movesOf key children) ++ movesBelow children
where
  movesBelow : List Pairing → List Operation
    | [] => []
    | p :: ps => moves claimed p ++ movesBelow ps

/-- The updates for a pairing in document order. -/
def updates : Pairing → List Operation
  | .same .. => []
  | .alike key content existing children =>
    (if content.comparable = existing.content.comparable then []
      else [.update key existing.id content]) ++ updatesBelow children
  | .fresh _ _ children => updatesBelow children
where
  updatesBelow : List Pairing → List Operation
    | [] => []
    | p :: ps => updates p ++ updatesBelow ps

/-- The topmost nodes without a partner below the root of a branch. -/
def unpaired (claimed : Pairing.Claimed) : Branch → List NodeId
  | ⟨_, cs⟩ => unpairedOf cs
where
  unpairedOf : List Branch → List NodeId
    | [] => []
    | c :: cs =>
      (if claimed.contains c.id then unpaired claimed c else [c.id]) ++ unpairedOf cs

/-- The deletions for a branch with the given claimed nodes, in ascending order. -/
def deletes (claimed : Pairing.Claimed) (existing : Branch) : List Operation :=
  ((unpaired claimed existing).mergeSort (· ≤ ·)).map .delete

/-- The plan of a pairing with an existing branch. -/
def ofPairing (existing : Branch) (p : Pairing) (claimed : Pairing.Claimed) : Plan where
  operations := deletes claimed existing ++ creates p ++ moves claimed p ++ updates p
  index := p.partners.foldl (fun index entry => index.insert entry.1 entry.2) ∅

/-- The plan that turns an existing branch into one like `target`. -/
def ofBranches (existing target : Branch) : Plan :=
  let (p, claimed) := Pairing.ofTarget existing (Target.ofBranch target)
  ofPairing existing p claimed

end Plan

/-- Why a merge failed. -/
inductive MergeError
  | failed (cause : TransactionError)
  /-- The roots are of different kinds. -/
  | rootMismatch (existing : NodeId) (existingKind : Kind) (target : NodeId) (targetKind : Kind)
deriving DecidableEq

/-- The wording of a failure. -/
def MergeError.message : MergeError → String
  | failed cause => s!"Tree error: {cause.message}"
  | rootMismatch existing kind target targetKind =>
    s!"Root kinds differ: existing {existing.text} is a {kind.word}, " ++
      s!"target {target.text} is a {targetKind.word}"

/-- The branch of a node that must exist. -/
def requireBranch (t : Tree) (id : NodeId) : Except MergeError Branch :=
  match t.branch? id with
  | some b => .ok b
  | none => .error (.failed (.tree (.unknownNode id)))

/-- The plan that turns the branch of `root` into one like the branch of `targetRoot`. The roots
must be of the same kind. -/
def plan (t : Tree) (root : NodeId) (target : Tree) (targetRoot : NodeId) :
    Except MergeError Plan := do
  let existing ← requireBranch t root
  let wanted ← requireBranch target targetRoot
  let kind := existing.node.kind
  let targetKind := wanted.node.kind
  if kind.same targetKind then return Plan.ofBranches existing wanted
  else throw (.rootMismatch root kind targetRoot targetKind)

end ContentTree.Merge
