import ContentTree.Node.Basic

/-!
# Merge operations

What has to be done to an existing tree so that it becomes like a target tree. Operations never hold
identifiers of the target. Nodes that exist already are named by their identifiers, and any node
that has a counterpart in the target also by the key of that counterpart, so that nodes created by
one operation can be found by later ones.

## Main definitions

* `BranchKey`, `Destination`: keys of target nodes, and places described by keys.
* `Operation`: creations, moves, updates and deletions.
* `Operation.priority`, `Operation.sort`: the order in which operations are carried out.
* `Operation.text`: an operation as shown in reports.
-/

namespace ContentTree.Merge

/-- A name for a node of the target: the fingerprint of its branch, and a number where the same
fingerprint occurs again. -/
abbrev BranchKey := String

/-- A place in the target. -/
structure Destination where
  /-- The key of the parent. -/
  parent : BranchKey
  /-- The keys of the siblings that follow, nearest first. -/
  followers : List BranchKey
deriving DecidableEq

/-- One step of a merge. -/
inductive Operation
  /-- A node without a counterpart goes to the trash. -/
  | delete (id : NodeId)
  /-- A node is added that only the target has. -/
  | create (destination : Destination) (key : BranchKey) (content : Content)
  /-- A node is put where its counterpart is; nodes created before are found by their key. -/
  | move (destination : Destination) (key : BranchKey) (id : Option NodeId)
  /-- A node takes over the content of its counterpart. -/
  | update (key : BranchKey) (id : NodeId) (content : Content)
deriving DecidableEq

namespace Operation

/-- Operations with a lower number are carried out first. -/
def priority : Operation → Nat
  | delete .. => 100
  | create .. => 200
  | move .. => 300
  | update .. => 400

/-- The word for an operation. -/
def word : Operation → String
  | delete .. => "delete"
  | create .. => "create"
  | move .. => "move"
  | update .. => "update"

/-- A content in short: the tag of an element, or the word for the kind. -/
def describe (c : Content) : String :=
  c.kind.tag?.getD c.kind.word

/-- An operation as shown in reports. -/
def text : Operation → String
  | delete id => "Delete " ++ id.text
  | create _ key content => "Create " ++ describe content ++ "(" ++ key ++ ")"
  | move _ key (some id) => "Move " ++ id.text ++ "(" ++ key ++ ")"
  | move _ key none => "Move (" ++ key ++ ")"
  | update _ id content => "Update " ++ describe content ++ " " ++ id.text

/-- Operations in the order in which they are carried out. Operations of the same priority keep
their order. -/
def sort (operations : List Operation) : List Operation :=
  operations.mergeSort fun a b => a.priority ≤ b.priority

end Operation

end ContentTree.Merge
