import ContentTree.Proofs.Tree.WellFormed

/-!
# Cutting trees apart

The nodes of a tree are divided into two sides. Cutting every link that leads from one side to the
other leaves a well-formed tree, in which each side can then be removed without a trace.

## Main definitions

* `Tree.sever`: a tree whose links stay on one side each.
* `Tree.drop`: a tree without some of its nodes.

## Main results

* `WellFormed.sever`, `WellFormed.drop`: both leave a well-formed tree.
-/

namespace ContentTree

namespace Tree

open Relation

variable {t : Tree} {side gone : NodeId → Bool} {c p id : NodeId} {n : Node}

/-- A node with the links that stay on its side. -/
def severed (t : Tree) (side : NodeId → Bool) (n : Node) : Node :=
  let parent := n.parent.filter fun p => side p == side n.id
  { n with
    parent
    children := n.children.filter fun c => side c == side n.id
    position := match parent with
      | some p => ((t.children p).filter fun c => side c == side p).idxOf n.id
      | none => 0 }

/-- A tree in which no link leads from one side to the other. -/
def sever (t : Tree) (side : NodeId → Bool) : Tree :=
  { t with nodes := t.nodes.map fun _ n => t.severed side n }

/-- A tree without some of its nodes. -/
def drop (t : Tree) (gone : NodeId → Bool) : Tree :=
  { t with nodes := t.nodes.filter fun id _ => !gone id }

/-! ### Severed trees -/

theorem rewritten_sever (t : Tree) (side : NodeId → Bool) :
    Rewritten (t.severed side) t (t.sever side) where
  node? id := by simp [node?, sever]
  rest := rfl

theorem parent_severed :
    (t.severed side n).parent = some p ↔ n.parent = some p ∧ side p = side n.id := by
  simp [severed, Option.filter_eq_some_iff]

theorem position_severed (hp : (t.severed side n).parent = some p) :
    (t.severed side n).position =
      ((t.children p).filter fun c => side c == side p).idxOf n.id := by
  have hfilter : n.parent.filter (fun p => side p == side n.id) = some p := hp
  simp [severed, hfilter]

namespace WellFormed

variable (h : t.WellFormed)
include h

theorem children_sever (side : NodeId → Bool) (p : NodeId) :
    (t.sever side).children p = (t.children p).filter fun c => side c == side p := by
  cases hn : t.node? p with
  | none =>
    rw [children_of_none hn, children_of_none (by rw [(rewritten_sever t side).node?, hn]; rfl)]
    rfl
  | some n =>
    rw [children_eq hn, children_eq ((rewritten_sever t side).node?_of_some hn), ← h.keyed hn]
    rfl

theorem under_sever_iff : (t.sever side).Under c p ↔ t.Under c p ∧ side c = side p := by
  constructor
  · intro hc
    obtain ⟨m, hm, hp⟩ := hc.exists_node
    obtain ⟨n, hn, rfl⟩ := (rewritten_sever t side).exists_of_some hm
    obtain ⟨hp, hside⟩ := parent_severed.mp hp
    exact ⟨under_of_node? hn hp, h.keyed hn ▸ hside.symm⟩
  · rintro ⟨hc, hside⟩
    obtain ⟨n, hn, hp⟩ := hc.exists_node
    refine under_of_node? ((rewritten_sever t side).node?_of_some hn) (parent_severed.mpr ⟨hp, ?_⟩)
    rw [h.keyed hn, hside]

/-- Cutting every link between two sides leaves a well-formed tree. -/
theorem sever (side : NodeId → Bool) : (t.sever side).WellFormed where
  keyed := (rewritten_sever t side).keyed h.keyed fun _ => rfl
  child_iff {p i c} := by
    -- No child occurs twice, so that its position in the shorter list is where it first occurs.
    have hnodup := (h.nodup_children p).filter fun c => side c == side p
    rw [h.children_sever]
    constructor
    · intro hi
      obtain ⟨hmem, hside⟩ := List.mem_filter.mp (List.mem_of_getElem? hi)
      obtain ⟨n, hn, hp⟩ := (h.mem_children_iff.mp hmem).exists_node
      have hid := h.keyed hn
      have hparent : (t.severed side n).parent = some p :=
        parent_severed.mpr ⟨hp, hid.symm ▸ (beq_iff_eq.mp hside).symm⟩
      refine ⟨_, (rewritten_sever t side).node?_of_some hn, hparent, ?_⟩
      obtain ⟨hlt, hget⟩ := List.getElem?_eq_some_iff.mp hi
      rw [position_severed hparent, hid, ← hget, hnodup.idxOf_getElem]
    · rintro ⟨m, hm, hp, rfl⟩
      obtain ⟨n, hn, rfl⟩ := (rewritten_sever t side).exists_of_some hm
      have hid := h.keyed hn
      obtain ⟨hparent, hside⟩ := parent_severed.mp hp
      have hmem : c ∈ (t.children p).filter fun c => side c == side p :=
        List.mem_filter.mpr ⟨h.mem_children_iff.mpr (under_of_node? hn hparent),
          beq_iff_eq.mpr (hid ▸ hside.symm)⟩
      rw [position_severed hp, hid]
      exact List.getElem?_idxOf hmem
  root_position {id m} hm hp := by
    obtain ⟨n, -, rfl⟩ := (rewritten_sever t side).exists_of_some hm
    have hfilter : n.parent.filter (fun p => side p == side n.id) = none := hp
    simp [severed, hfilter]
  acyclic id hb := h.acyclic id (TransGen.mono (fun _ _ hc => (h.under_sever_iff.mp hc).1) _ _ hb)
  page_root {id m} hm hpage := by
    obtain ⟨n, hn, rfl⟩ := (rewritten_sever t side).exists_of_some hm
    have hroot : n.parent = none := h.page_root hn hpage
    simp [severed, hroot]

end WellFormed

/-! ### Trees without some of their nodes -/

theorem node?_drop (t : Tree) (gone : NodeId → Bool) (id : NodeId) :
    (t.drop gone).node? id = if gone id then none else t.node? id := by
  rw [node?, node?, drop, Std.ExtTreeMap.getElem?_filter']
  cases t.nodes[id]? <;> cases gone id <;> rfl

theorem node?_drop_eq_some : (t.drop gone).node? id = some n ↔
    t.node? id = some n ∧ gone id = false := by
  rw [node?_drop]
  cases gone id <;> simp

theorem under_drop_iff : (t.drop gone).Under c p ↔ t.Under c p ∧ gone c = false := by
  rw [Under, Under, parent?, parent?, node?_drop]
  cases gone c <;> simp

/-- A well-formed tree stays so without one side, if no link leads from there to the other. -/
theorem WellFormed.drop (h : t.WellFormed) (hside : ∀ {c p}, t.Under c p → gone c = gone p) :
    (t.drop gone).WellFormed where
  keyed _ _ hn := h.keyed (node?_drop_eq_some.mp hn).1
  child_iff {p i c} := by
    have hchildren : (t.drop gone).children p = if gone p then [] else t.children p := by
      rw [children, children, node?_drop]
      cases gone p <;> rfl
    rw [hchildren]
    constructor
    · intro hi
      -- A parent that is left has all of its children left, since they are on its side.
      cases hp : gone p with
      | true => simp [hp] at hi
      | false =>
        rw [hp] at hi
        obtain ⟨n, hn, hparent, hpos⟩ := h.child_iff.mp hi
        exact ⟨n, node?_drop_eq_some.mpr ⟨hn, (hside (under_of_node? hn hparent)).trans hp⟩,
          hparent, hpos⟩
    · rintro ⟨n, hn, hparent, hpos⟩
      obtain ⟨hn, hc⟩ := node?_drop_eq_some.mp hn
      rw [(hside (under_of_node? hn hparent)).symm.trans hc]
      exact h.child_iff.mpr ⟨n, hn, hparent, hpos⟩
  root_position hn := h.root_position (node?_drop_eq_some.mp hn).1
  acyclic id hb := h.acyclic id (TransGen.mono (fun _ _ hc => (under_drop_iff.mp hc).1) _ _ hb)
  page_root hn := h.page_root (node?_drop_eq_some.mp hn).1

end Tree

end ContentTree
