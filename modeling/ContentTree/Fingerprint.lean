import ContentTree.Crc32
import ContentTree.Json.Printer
import ContentTree.Node.Json
import ContentTree.Tree.Branch

/-!
# Fingerprints

Identifiers do not survive an export and a new import, contents do. The fingerprint of a node is the
checksum of its comparable content. The fingerprint of a branch takes in the fingerprints of the
branches of all children in their order, so that equal branches have equal fingerprints.

## Main definitions

* `Content.fingerprint`: of a content.
* `Fingerprint.combine`: of a branch, from that of its root and those of the children's branches.
* `Fingerprint.ofBranch`: of a branch, by recursion.
* `Tree.fingerprints`: of all branches below a node, in one pass from the last node to the first.
-/

namespace ContentTree

/-- The text that stands for a content when contents are compared. -/
def Content.comparableText (c : Content) : String :=
  c.comparable.toJson.compact

/-- The checksum of the comparable part of a content. -/
def Content.fingerprint (c : Content) : UInt32 :=
  Crc32.ofString c.comparableText

namespace Fingerprint

/-- The fingerprint of a branch, from that of its root and those of the branches of the children. -/
def combine (own : UInt32) (children : List UInt32) : UInt32 :=
  Crc32.ofBytes (Crc32.bytes own ++ children.flatMap Crc32.bytes)

/-- The fingerprint of a branch. -/
def ofBranch : Branch → UInt32
  | ⟨n, cs⟩ => combine n.toContent.fingerprint (ofBranches cs)
where
  ofBranches : List Branch → List UInt32
    | [] => []
    | c :: cs => ofBranch c :: ofBranches cs

/-- Adds the fingerprint of the branch of one node, given those of the nodes after it. -/
def addNode (n : Node) (known : Std.ExtTreeMap NodeId UInt32) : Std.ExtTreeMap NodeId UInt32 :=
  known.insert n.id (combine n.toContent.fingerprint (n.children.filterMap (known[·]?)))

/-- The fingerprints of the branches of all given nodes, which stand in document order. Children
come after their parent, so they are known when its turn comes. -/
def ofNodes (nodes : List Node) : Std.ExtTreeMap NodeId UInt32 :=
  nodes.foldr addNode ∅

end Fingerprint

/-- The fingerprints of the branches of a node and of all nodes below it. -/
def Tree.fingerprints (t : Tree) (root : NodeId) : Std.ExtTreeMap NodeId UInt32 :=
  Fingerprint.ofNodes (t.branchNodes root)

end ContentTree
