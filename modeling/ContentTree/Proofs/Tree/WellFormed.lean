import ContentTree.Proofs.Draft.Writes
import Mathlib.Data.Finset.Card
import Mathlib.Data.Finset.Filter
import Mathlib.Data.List.Dedup
import Mathlib.Logic.Relation

/-!
# Well-formed trees

In a well-formed tree the parents, the lists of children and the indices of the nodes tell the same
story, and the story has no circles. The way up and the way down are then finite, which is what the
bounded searches of a tree rely on.

## Main definitions

* `Tree.Under`, `Tree.Below`, `Tree.Within`: directly below a node, below it, and at or below it.
* `Tree.WellFormed`: parents, children, indices and pages fit together.
* `Tree.Sound`: a well-formed tree whose counter and shadow page are in order, too.

## Main results

* `WellFormed.mem_children_iff`, `WellFormed.nodup_children`: a child stands in one list, once.
* `WellFormed.isAncestor_iff`: the bounded search for an ancestor finds every ancestor.
-/

namespace ContentTree.Tree

open Relation

variable {t : Tree} {id a c p q : NodeId} {i j : Nat} {n : Node}

/-! ### The order of a tree -/

/-- One node stands directly below another. -/
def Under (t : Tree) (child parent : NodeId) : Prop := t.parent? child = some parent

/-- One node stands below another. -/
def Below (t : Tree) : NodeId → NodeId → Prop := TransGen t.Under

/-- One node is another or stands below it. -/
def Within (t : Tree) : NodeId → NodeId → Prop := ReflTransGen t.Under

theorem Under.eq (h : t.Under c p) (h' : t.Under c q) : p = q :=
  Option.some.inj (h.symm.trans h')

theorem under_of_node? (hn : t.node? c = some n) (hp : n.parent = some p) : t.Under c p :=
  (parent?_eq hn).trans hp

theorem Under.exists_node (h : t.Under c p) : ∃ n, t.node? c = some n ∧ n.parent = some p :=
  Option.bind_eq_some_iff.mp h

theorem Below.exists_under (h : t.Below c a) : ∃ p, t.Under c p ∧ t.Within p a :=
  TransGen.head'_iff.mp h

theorem Within.eq_or_below (h : t.Within c a) : c = a ∨ t.Below c a := by
  rcases reflTransGen_iff_eq_or_transGen.mp h with rfl | h
  · exact .inl rfl
  · exact .inr h

theorem Below.within (h : t.Below c a) : t.Within c a := TransGen.to_reflTransGen h

/-- Whoever stands below a node stands at or below its parent. -/
theorem Below.of_under (h : t.Below c a) (hp : t.Under c p) : t.Within p a := by
  obtain ⟨q, hq, hqa⟩ := h.exists_under
  exact hp.eq hq ▸ hqa

/-- A node without a parent is at or below itself only. -/
theorem Within.eq_of_root (h : t.Within c a) (hc : t.parent? c = none) : c = a := by
  rcases h.eq_or_below with rfl | hb
  · rfl
  · obtain ⟨p, hp, -⟩ := hb.exists_under
    exact absurd (hc.symm.trans hp) (by simp)

/-! ### Well-formedness -/

/-- The links of a tree fit together. -/
structure WellFormed (t : Tree) : Prop where
  /-- Every node is stored under its own identifier. -/
  keyed : t.Keyed
  /-- The lists of children say what the parents and the indices of the nodes say. -/
  child_iff : ∀ {p i c}, (t.children p)[i]? = some c ↔
    ∃ n, t.node? c = some n ∧ n.parent = some p ∧ n.position = i
  /-- A node without a parent has the index zero. -/
  root_position : ∀ {id n}, t.node? id = some n → n.parent = none → n.position = 0
  /-- No node is its own ancestor. -/
  acyclic : ∀ id, ¬ t.Below id id
  /-- No page has a parent. -/
  page_root : ∀ {id n}, t.node? id = some n → n.kind.isPage → n.parent = none

/-- A well-formed tree whose further entries are in order: no identifier is above the counter, and
the shadow page is a page. -/
structure Sound (t : Tree) : Prop extends WellFormed t where
  id_le_lastId : ∀ {id n}, t.node? id = some n → id ≤ t.lastId
  shadow_page : ∀ {s}, t.shadow = some s → ∃ n, t.node? s = some n ∧ n.kind.isPage

namespace WellFormed

variable (h : t.WellFormed)
include h

theorem mem_children_iff : c ∈ t.children p ↔ t.Under c p := by
  rw [List.mem_iff_getElem?]
  constructor
  · rintro ⟨i, hi⟩
    obtain ⟨n, hn, hp, -⟩ := h.child_iff.mp hi
    exact under_of_node? hn hp
  · intro hc
    obtain ⟨n, hn, hp⟩ := hc.exists_node
    exact ⟨n.position, h.child_iff.mpr ⟨n, hn, hp, rfl⟩⟩

theorem index_unique (hi : (t.children p)[i]? = some c) (hj : (t.children q)[j]? = some c) :
    p = q ∧ i = j := by
  obtain ⟨n, hn, hp, rfl⟩ := h.child_iff.mp hi
  obtain ⟨m, hm, hq, rfl⟩ := h.child_iff.mp hj
  obtain rfl := Option.some.inj (hn.symm.trans hm)
  exact ⟨Option.some.inj (hp.symm.trans hq), rfl⟩

theorem nodup_children (p : NodeId) : (t.children p).Nodup := by
  rw [List.nodup_iff_getElem?_ne_getElem?]
  intro i j hij hj heq
  rw [List.getElem?_eq_getElem hj] at heq
  exact hij.ne (h.index_unique heq (List.getElem?_eq_getElem hj)).2

theorem idxOf_eq (hi : (t.children p)[i]? = some c) : (t.children p).idxOf c = i := by
  obtain ⟨hlt, hc⟩ := List.getElem?_eq_some_iff.mp hi
  rw [← hc, (h.nodup_children p).idxOf_getElem]

theorem idxOf_child (hn : t.node? c = some n) (hp : n.parent = some p) :
    (t.children p).idxOf c = n.position :=
  h.idxOf_eq (h.child_iff.mpr ⟨n, hn, hp, rfl⟩)

theorem exists_parent (hc : t.Under c p) : ∃ n, t.node? p = some n := by
  have hmem := h.mem_children_iff.mpr hc
  cases hp : t.node? p with
  | none => simp [children_of_none hp] at hmem
  | some n => exact ⟨n, rfl⟩

theorem exists_ancestor (hb : t.Below c a) : ∃ n, t.node? a = some n := by
  obtain ⟨b, -, hb⟩ := TransGen.tail'_iff.mp hb
  exact h.exists_parent hb

theorem exists_of_within (hw : t.Within c a) (hc : t.node? c = some n) :
    ∃ m, t.node? a = some m := by
  rcases hw.eq_or_below with rfl | hb
  · exact ⟨n, hc⟩
  · exact h.exists_ancestor hb

/-- The children from an index on are those whose own index is not before it. -/
theorem mem_drop_children_iff (hn : t.node? c = some n) :
    c ∈ (t.children p).drop i ↔ n.parent = some p ∧ i ≤ n.position := by
  rw [List.mem_iff_getElem?]
  constructor
  · rintro ⟨j, hj⟩
    rw [List.getElem?_drop] at hj
    obtain ⟨m, hm, hp, hpos⟩ := h.child_iff.mp hj
    obtain rfl := Option.some.inj (hn.symm.trans hm)
    exact ⟨hp, by omega⟩
  · rintro ⟨hp, hle⟩
    refine ⟨n.position - i, ?_⟩
    rw [List.getElem?_drop, Nat.add_sub_cancel' hle]
    exact h.child_iff.mpr ⟨n, hn, hp, rfl⟩

theorem idxOf_drop_children (hn : t.node? c = some n) (hp : n.parent = some p)
    (hi : i ≤ n.position) : ((t.children p).drop i).idxOf c = n.position - i := by
  have hget : ((t.children p).drop i)[n.position - i]? = some c := by
    rw [List.getElem?_drop, Nat.add_sub_cancel' hi]
    exact h.child_iff.mpr ⟨n, hn, hp, rfl⟩
  obtain ⟨hlt, hc⟩ := List.getElem?_eq_some_iff.mp hget
  have hnd := (h.nodup_children p).sublist (List.drop_sublist i _)
  rw [← hc, hnd.idxOf_getElem]

/-- No node stands within two different children of a node. -/
theorem eq_of_within_siblings {x d : NodeId} (hc : t.Under c p) (hd : t.Under d p)
    (hxc : t.Within x c) (hxd : t.Within x d) : c = d := by
  -- Of two nodes above the same node, one is above the other, but siblings are not.
  have hnot : ∀ {a b}, t.Under a p → t.Under b p → ¬ t.Below a b := fun ha hb hab =>
    h.acyclic p (TransGen.tail' (hab.of_under ha) hb)
  have hunique : Relator.RightUnique t.Under := fun _ _ _ h h' => h.eq h'
  rcases ReflTransGen.total_of_right_unique hunique hxc hxd with hcd | hdc
  · exact (Within.eq_or_below hcd).resolve_right (hnot hc hd)
  · exact ((Within.eq_or_below hdc).resolve_right (hnot hd hc)).symm

theorem not_page_of_under (hc : t.Under c p) (hn : t.node? c = some n) :
    n.kind.isPage = false := by
  by_contra hpage
  have hroot := h.page_root hn (by simpa using hpage)
  rw [Under, parent?_eq hn, hroot] at hc
  exact Option.some_ne_none _ hc.symm

end WellFormed

/-! ### The way up is finite -/

open Classical in
/-- How many nodes stand above a node. -/
noncomputable def depth (t : Tree) (id : NodeId) : Nat :=
  (t.ids.toFinset.filter fun a => t.Below id a).card

theorem mem_ids : id ∈ t.ids ↔ ∃ n, t.node? id = some n := by
  rw [ids, Std.ExtTreeMap.mem_keys, ← Std.ExtTreeMap.contains_iff_mem, ← contains_iff]
  rfl

theorem card_ids (t : Tree) : t.ids.toFinset.card = t.size := by
  rw [ids, List.toFinset_card_of_nodup Std.ExtTreeMap.nodup_keys, Std.ExtTreeMap.length_keys, size]

theorem depth_le_size (t : Tree) (id : NodeId) : t.depth id ≤ t.size := by
  classical
  rw [← card_ids]
  exact Finset.card_filter_le _ _

namespace WellFormed

variable (h : t.WellFormed)
include h

theorem depth_lt (hc : t.Under c p) : t.depth p < t.depth c := by
  classical
  refine Finset.card_lt_card (Finset.ssubset_iff.mpr ⟨p, ?_, ?_⟩)
  · simp [h.acyclic p]
  · intro a ha
    rw [Finset.mem_filter, List.mem_toFinset, mem_ids]
    rcases Finset.mem_insert.mp ha with rfl | ha
    · exact ⟨h.exists_parent hc, TransGen.single hc⟩
    · have hpa := (Finset.mem_filter.mp ha).2
      exact ⟨h.exists_ancestor hpa, TransGen.head hc hpa⟩

theorem mem_upFrom_of_below {fuel : Nat} (hfuel : t.depth id ≤ fuel) (hb : t.Below id a) :
    a ∈ t.upFrom fuel (t.parent? id) := by
  induction fuel generalizing id with
  | zero =>
    obtain ⟨p, hp, -⟩ := hb.exists_under
    have := h.depth_lt hp
    omega
  | succ fuel ih =>
    obtain ⟨p, hp, hpa⟩ := hb.exists_under
    rw [show t.parent? id = some p from hp, upFrom, List.mem_cons]
    rcases hpa.eq_or_below with rfl | hpa
    · exact .inl rfl
    · have := h.depth_lt hp
      exact .inr (ih (by omega) hpa)

end WellFormed

theorem upFrom_none (fuel : Nat) : t.upFrom fuel none = [] := by
  cases fuel <;> rfl

theorem within_of_mem_upFrom {fuel : Nat} (ha : a ∈ t.upFrom fuel (some id)) :
    t.Within id a := by
  induction fuel generalizing id with
  | zero => simp [upFrom] at ha
  | succ fuel ih =>
    rcases List.mem_cons.mp ha with rfl | ha
    · exact .refl
    · cases hp : t.parent? id with
      | none =>
        simp [hp, upFrom_none] at ha
      | some p =>
        rw [hp] at ha
        exact .head hp (ih ha)

theorem below_of_mem_ancestors (ha : a ∈ t.ancestors id) : t.Below id a := by
  cases hp : t.parent? id with
  | none =>
    simp [ancestors, hp, upFrom_none] at ha
  | some p =>
    rw [ancestors, hp] at ha
    exact TransGen.head' hp (within_of_mem_upFrom ha)

theorem WellFormed.mem_ancestors_iff (h : t.WellFormed) : a ∈ t.ancestors id ↔ t.Below id a :=
  ⟨below_of_mem_ancestors, h.mem_upFrom_of_below (t.depth_le_size id)⟩

/-- The bounded search for an ancestor finds every ancestor. -/
theorem WellFormed.isAncestor_iff (h : t.WellFormed) : t.isAncestor a id = true ↔ t.Below id a := by
  rw [isAncestor, List.contains_iff_mem, h.mem_ancestors_iff]

end ContentTree.Tree
