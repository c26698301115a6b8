import ContentTree.Proofs.Tree.Export

/-!
# Other identifiers

Two trees may have the same nodes under different identifiers. Identifiers say where nodes stand and
nothing else, so that the branches of such trees have the same shape and the same contents.

## Main definitions

* `Node.renamed`: a node under other identifiers.
* `Tree.Renamed`: a tree has the nodes of another under other identifiers.

## Main results

* `Renamed.branch?_eq`: the branch of a node is the renamed branch.
-/

namespace ContentTree

/-- A node under other identifiers. -/
def Node.renamed (f : NodeId → NodeId) (n : Node) : Node :=
  { n with
    id := f n.id
    parent := n.parent.map f
    children := n.children.map f
    document := n.document.map f
    component := n.component.map f }

namespace Branch

theorem map_mk (g : Node → Node) (n : Node) (cs : List Branch) :
    map g ⟨n, cs⟩ = ⟨g n, cs.map (map g)⟩ := by
  rw [map, mapAll_eq]

theorem node_map (g : Node → Node) (b : Branch) : (b.map g).node = g b.node := by
  obtain ⟨n, cs⟩ := b
  rw [map_mk]
  rfl

theorem ids_map {g : Node → Node} {f : NodeId → NodeId} (hg : ∀ n, (g n).id = f n.id)
    (b : Branch) : (b.map g).ids = b.ids.map f := by
  induction b with
  | mk n cs ih =>
    have hall : (cs.map (map g)).flatMap ids = (cs.flatMap ids).map f := by
      rw [List.flatMap_map, List.map_flatMap]
      exact List.flatMap_congr ih
    rw [map_mk, ids_mk, ids_mk, hall, List.map_cons, hg]

end Branch

namespace Tree

variable {f : NodeId → NodeId} {t t' : Tree} {x : NodeId}

/-- A tree has the nodes of another, and no others, under other identifiers: different nodes under
different ones. -/
structure Renamed (f : NodeId → NodeId) (t t' : Tree) : Prop where
  injective : ∀ x ∈ t.ids, ∀ y ∈ t.ids, f x = f y → x = y
  node? : ∀ x ∈ t.ids, t'.node? (f x) = (t.node? x).map (Node.renamed f)
  exists_eq : ∀ y ∈ t'.ids, ∃ x ∈ t.ids, f x = y

namespace Renamed

variable (h : t.Renamed f t')
include h

theorem mem_ids (hx : x ∈ t.ids) : f x ∈ t'.ids := by
  obtain ⟨n, hn⟩ := Tree.mem_ids.mp hx
  exact Tree.mem_ids.mpr ⟨_, by rw [h.node? x hx, hn, Option.map_some]⟩

theorem size_eq : t'.size = t.size := by
  have himage : t'.ids.toFinset = t.ids.toFinset.image f := by
    ext y
    simp only [Finset.mem_image, List.mem_toFinset]
    constructor
    · exact h.exists_eq y
    · rintro ⟨x, hx, rfl⟩
      exact h.mem_ids hx
  rw [← card_ids, ← card_ids, himage, Finset.card_image_of_injOn]
  intro x hx y hy hxy
  rw [List.coe_toFinset] at hx hy
  exact h.injective x hx y hy hxy

theorem branchWithin_eq (ht : t.WellFormed) (fuel : Nat) (hx : x ∈ t.ids) :
    t'.branchWithin fuel (f x) = (t.branchWithin fuel x).map (Branch.map (Node.renamed f)) := by
  induction fuel generalizing x with
  | zero => rfl
  | succ fuel ih =>
    obtain ⟨n, hn⟩ := Tree.mem_ids.mp hx
    -- The children of a node are nodes of the tree, so that they have been renamed as well.
    have hchildren : (n.children.map f).filterMap (t'.branchWithin fuel) =
        (n.children.filterMap (t.branchWithin fuel)).map (Branch.map (Node.renamed f)) := by
      rw [List.filterMap_map, List.map_filterMap]
      refine List.filterMap_congr fun c hc => ih ?_
      obtain ⟨m, hm, -⟩ := (ht.mem_children_iff.mp (children_eq hn ▸ hc)).exists_node
      exact Tree.mem_ids.mpr ⟨m, hm⟩
    rw [branchWithin, branchWithin, h.node? x hx, hn, Option.map_some, Option.map_some,
      Option.map_some, Option.map_some, Branch.map_mk, ← hchildren]
    rfl

/-- The branch of a node is the renamed branch. -/
theorem branch?_eq (ht : t.WellFormed) (hx : x ∈ t.ids) :
    t'.branch? (f x) = (t.branch? x).map (Branch.map (Node.renamed f)) := by
  rw [branch?, branch?, h.size_eq, h.branchWithin_eq ht t.size hx]

end Renamed

end Tree

end ContentTree
