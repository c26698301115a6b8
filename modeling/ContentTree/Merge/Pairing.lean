import ContentTree.Merge.Target

/-!
# Pairing a target with an existing branch

Each node of the target is paired with at most one node of the existing branch, and each existing
node with at most one of the target. The roots are paired with each other. Below them, in document
order, a target node is paired with

* an unclaimed existing branch that is equal as a whole, wherever it stands, though one below the
  partner of the parent is preferred;
* or else the first unclaimed child of the partner of the parent that is of the same kind and, where
  they are elements, has the same tag;
* or else with nothing, which means that it has to be created.

## Main definitions

* `Spot`, `spots`: the existing branches with what is needed to find them.
* `Pairing`: a target with the partners of its nodes.
* `Pairing.ofTarget`: the pairing of a target with an existing branch.
-/

namespace ContentTree.Merge

/-- An existing branch below the root, with its fingerprint and the parent of its root. -/
structure Spot where
  parent : NodeId
  fingerprint : UInt32
  branch : Branch

/-- All branches below the root of a branch in document order, given the fingerprints by node. -/
def spotsWith (known : Std.ExtTreeMap NodeId UInt32) : Branch → List Spot
  | ⟨n, cs⟩ => below n.id cs
where
  below (parent : NodeId) : List Branch → List Spot
    | [] => []
    | c :: cs =>
      ⟨parent, known.getD c.id 0, c⟩ :: (spotsWith known c ++ below parent cs)

/-- All branches below the root of a branch in document order. -/
def spots (b : Branch) : List Spot :=
  spotsWith (Fingerprint.ofNodes b.nodes) b

/-- A target with the partners of its nodes. -/
inductive Pairing
  /-- The whole branch exists already. -/
  | same (target : Target) (existing : Branch)
  /-- The node exists, with another content or with other nodes below it. -/
  | alike (key : BranchKey) (content : Content) (existing : Branch) (children : List Pairing)
  /-- The node does not exist. -/
  | fresh (key : BranchKey) (content : Content) (children : List Pairing)

namespace Pairing

/-- The existing nodes that have a partner so far. -/
abbrev Claimed := Std.ExtTreeSet NodeId

/-- Whether no node of a branch has a partner. -/
def unclaimed (claimed : Claimed) (b : Branch) : Bool :=
  b.ids.all fun id => !claimed.contains id

/-- An unclaimed branch equal to the target, by preference a child of the given parent. -/
def findSame (spots : List Spot) (parent : Option NodeId) (claimed : Claimed) (t : Target) :
    Option Branch :=
  let usable (s : Spot) : Bool :=
    s.fingerprint = t.label.fingerprint && unclaimed claimed s.branch && t.equals s.branch
  ((spots.find? fun s => some s.parent = parent && usable s).or (spots.find? usable)).map
    Spot.branch

/-- Whether two nodes that differ may still be partners: they are of the same kind, and elements
have the same tag. -/
def compatible (k other : Kind) : Bool :=
  k.same other && k.tag? = other.tag?

/-- The first unclaimed child of a branch that may be the partner of a node of the given kind. -/
def findAlike (parent : Option Branch) (claimed : Claimed) (k : Kind) : Option Branch := do
  let p ← parent
  p.children.find? fun c => !claimed.contains c.id && compatible c.node.kind k

/-- Claims nodes. -/
def claim (ids : List NodeId) : StateM Claimed Unit :=
  modify fun claimed => ids.foldl (·.insert ·) claimed

mutual

/-- Pairs a target, given the partner of its parent. -/
def pair (spots : List Spot) (parent : Option Branch) : Target → StateM Claimed Pairing
  | .mk label content children => do
    match findSame spots (parent.map Branch.id) (← get) (.mk label content children) with
    | some b =>
      claim b.ids
      return same (.mk label content children) b
    | none =>
      match findAlike parent (← get) content.kind with
      | some b =>
        claim [b.id]
        return alike label.key content b (← pairAll spots (some b) children)
      | none => return fresh label.key content (← pairAll spots none children)

/-- Pairs targets in their order, given the partner of their parent. -/
def pairAll (spots : List Spot) (parent : Option Branch) :
    List Target → StateM Claimed (List Pairing)
  | [] => return []
  | t :: ts => return (← pair spots parent t) :: (← pairAll spots parent ts)

end

/-- The pairing of a target with an existing branch, and the claimed nodes. -/
def ofTarget (existing : Branch) (t : Target) : Pairing × Claimed :=
  let below := (claim [existing.id] *> pairAll (spots existing) (some existing) t.children).run ∅
  (alike t.key t.content existing below.1, below.2)

/-- The key of the root. -/
def key : Pairing → BranchKey
  | same target _ => target.key
  | alike key .. => key
  | fresh key .. => key

/-- The partner of the root. -/
def partner? : Pairing → Option NodeId
  | same _ existing => some existing.id
  | alike _ _ existing _ => some existing.id
  | fresh .. => none

/-- The keys of a whole target that exists already, with the partners, in document order. -/
def keysOfSame : Target → Branch → List (BranchKey × NodeId)
  | .mk label _ children, ⟨n, cs⟩ => (label.key, n.id) :: keysOfAll children cs
where
  keysOfAll : List Target → List Branch → List (BranchKey × NodeId)
    | t :: ts, c :: cs => keysOfSame t c ++ keysOfAll ts cs
    | _, _ => []

/-- All keys with a partner in document order. -/
def partners : Pairing → List (BranchKey × NodeId)
  | same target existing => keysOfSame target existing
  | alike key _ existing children => (key, existing.id) :: partnersOfAll children
  | fresh _ _ children => partnersOfAll children
where
  partnersOfAll : List Pairing → List (BranchKey × NodeId)
    | [] => []
    | p :: ps => p.partners ++ partnersOfAll ps

end Pairing

end ContentTree.Merge
