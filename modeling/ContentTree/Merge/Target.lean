import ContentTree.Fingerprint
import ContentTree.Merge.Operation

/-!
# Targets of a merge

A target is a branch without identifiers, in which every node has a key. The key is the fingerprint
of the branch of the node; where a fingerprint occurs again, the number of earlier occurrences in
document order is added, so that different nodes have different keys.

## Main definitions

* `Labelled`: branches without identifiers that carry a label at every node.
* `Label`, `Target`: fingerprints with their occurrence number, and targets.
* `Target.ofBranch`: the target that a branch stands for.
-/

namespace ContentTree.Merge

/-- A branch without identifiers, with a label at every node. -/
inductive Labelled (α : Type)
  | mk (label : α) (content : Content) (children : List (Labelled α))

namespace Labelled

variable {α : Type}

/-- The label of the root. -/
def label : Labelled α → α
  | mk label _ _ => label

/-- The content of the root. -/
def content : Labelled α → Content
  | mk _ content _ => content

/-- The branches of the children. -/
def children : Labelled α → List (Labelled α)
  | mk _ _ children => children

/-- A branch with the fingerprint of every branch inside it. -/
def ofBranch : Branch → Labelled UInt32
  | ⟨n, cs⟩ =>
    let children := ofBranches cs
    mk (Fingerprint.combine n.toContent.fingerprint (children.map label)) n.toContent children
where
  ofBranches : List Branch → List (Labelled UInt32)
    | [] => []
    | c :: cs => ofBranch c :: ofBranches cs

/-- Whether a branch of a tree is like this one: comparable contents agree at corresponding nodes,
and lists of children have the same lengths. -/
def equals : Labelled α → Branch → Bool
  | mk _ content children, ⟨n, cs⟩ =>
    content.comparable = n.toContent.comparable && equalsAll children cs
where
  equalsAll : List (Labelled α) → List Branch → Bool
    | [], [] => true
    | t :: ts, c :: cs => t.equals c && equalsAll ts cs
    | _, _ => false

end Labelled

/-- The fingerprint of a branch and the number of earlier branches with the same one. -/
structure Label where
  fingerprint : UInt32
  occurrence : Nat
deriving DecidableEq

/-- The key of a node with the given label. -/
def Label.key (l : Label) : BranchKey :=
  if l.occurrence = 0 then Crc32.hex l.fingerprint
  else Crc32.hex l.fingerprint ++ "#" ++ Nat.repr l.occurrence

/-- A branch that a tree is to become like. -/
abbrev Target := Labelled Label

namespace Target

/-- How often each fingerprint has occurred so far. -/
abbrev Occurrences := Std.ExtTreeMap UInt32 Nat

/-- The label of the next node with a fingerprint. -/
def next (fingerprint : UInt32) : StateM Occurrences Label := do
  let occurrence := (← get).getD fingerprint 0
  modify (·.insert fingerprint (occurrence + 1))
  return ⟨fingerprint, occurrence⟩

/-- Numbers the fingerprints of a branch in document order. -/
def number : Labelled UInt32 → StateM Occurrences Target
  | .mk fingerprint content children => do
    let label ← next fingerprint
    return .mk label content (← numberAll children)
where
  numberAll : List (Labelled UInt32) → StateM Occurrences (List Target)
    | [] => return []
    | c :: cs => return (← number c) :: (← numberAll cs)

/-- The target a branch stands for. -/
def ofBranch (b : Branch) : Target :=
  ((number (Labelled.ofBranch b)).run ∅).1

/-- The key of the root. -/
def key (t : Target) : BranchKey :=
  t.label.key

end Target

end ContentTree.Merge
