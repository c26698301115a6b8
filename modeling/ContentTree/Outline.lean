import ContentTree.Fingerprint
import ContentTree.Text.Quoted
import ContentTree.Tree.Branch

/-!
# Outlines

A tree at a glance, one line for every node: what it is, where it stands, and on demand the
fingerprint of its branch. What is inside a text is not shown.

## Main definitions

* `Tree.outline`: the lines for a node and what is below it.
-/

namespace ContentTree

namespace Outline

/-- What a node is. -/
def label : Kind → String
  | .page name .. => "page " ++ name
  | .element tag _ => "<" ++ tag ++ ">"
  | .text content _ => Text.quote content
  | .component name => "component " ++ name
  | .fragment => "fragment"

/-- Whether a node is shared or mirrors something. -/
def standing (t : Tree) (id : NodeId) : String :=
  if t.isShared id then " [shared]" else if t.isSynced id then " [synced]" else ""

/-- The line for a node at a depth, given the fingerprints to show. -/
def line (t : Tree) (known : Std.ExtTreeMap NodeId UInt32) (depth : Nat) (n : Node) : String :=
  String.ofList (List.replicate (2 * depth) ' ') ++ label n.kind ++ " " ++ t.positionPath n.id ++
    (match known[n.id]? with | some sum => " #" ++ Crc32.hex sum | none => "") ++
    standing t n.id ++
    (match n.properties.dataKey with | some key => " [data-key=" ++ key ++ "]" | none => "")

/-- The lines for a branch at a depth. -/
def lines (t : Tree) (known : Std.ExtTreeMap NodeId UInt32) (depth : Nat) : Branch → List String
  | ⟨n, cs⟩ => line t known depth n :: if n.kind.isText then [] else linesOf (depth + 1) cs
where
  linesOf (depth : Nat) : List Branch → List String
    | [] => []
    | c :: cs => lines t known depth c ++ linesOf depth cs

end Outline

/-- One line for a node and for every node below it, with or without fingerprints. -/
def Tree.outline (t : Tree) (root : NodeId) (fingerprints : Bool) : List String :=
  match t.branch? root with
  | some b => Outline.lines t (if fingerprints then t.fingerprints root else ∅) 0 b
  | none => []

end ContentTree
