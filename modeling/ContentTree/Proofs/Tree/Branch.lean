import ContentTree.Proofs.Tree.WellFormed
import ContentTree.Tree.Branch

/-!
# Branches show the tree

The branch of a node is found by a search of bounded depth. In a well-formed tree the bound is never
reached: the branch is the one value that agrees with the tree at every node, and its nodes are
exactly those at or below the root.

## Main definitions

* `Branch.Shows`: a branch agrees with a tree at every node.

## Main results

* `WellFormed.branch?_eq_some_iff`: the branch of a node is the one that agrees with the tree.
* `WellFormed.mem_branchNodes_iff`: the nodes of a branch are those at or below its root.
* `WellFormed.exists_branch`: every node has a branch.
-/

namespace ContentTree

open Relation

namespace Branch

variable {t t' : Tree} {b c : Branch} {cs : List Branch} {n : Node}

/-- Induction over a branch, given the children. -/
@[elab_as_elim, induction_eliminator]
theorem inductionOn {motive : Branch → Prop} (b : Branch)
    (mk : ∀ n cs, (∀ c ∈ cs, motive c) → motive ⟨n, cs⟩) : motive b := by
  refine @Branch.rec motive (fun cs => ∀ c ∈ cs, motive c) mk ?_ ?_ b
  · simp
  · intro c cs hc hcs
    simpa using ⟨hc, hcs⟩

/-- A branch agrees with a tree at every node. -/
def Shows (t : Tree) : Branch → Prop
  | ⟨n, cs⟩ => t.node? n.id = some n ∧ n.children = cs.map Branch.id ∧ listShows cs
where
  listShows : List Branch → Prop
    | [] => True
    | c :: cs => Shows t c ∧ listShows cs

theorem listShows_iff : Shows.listShows t cs ↔ ∀ c ∈ cs, c.Shows t := by
  induction cs with
  | nil => simp [Shows.listShows]
  | cons c cs ih => simp [Shows.listShows, ih]

theorem shows_mk : Shows t ⟨n, cs⟩ ↔
    t.node? n.id = some n ∧ n.children = cs.map Branch.id ∧ ∀ c ∈ cs, c.Shows t := by
  rw [Shows, listShows_iff]

theorem mem_allNodes {bs : List Branch} : n ∈ allNodes bs ↔ ∃ b ∈ bs, n ∈ b.nodes := by
  induction bs with
  | nil => simp [allNodes, nodes.listNodes]
  | cons b bs ih =>
    rw [show allNodes (b :: bs) = b.nodes ++ allNodes bs from rfl, List.mem_append, ih]
    simp

theorem nodes_mk (n : Node) (cs : List Branch) : nodes ⟨n, cs⟩ = n :: allNodes cs := by
  rw [nodes]

theorem node_mem_nodes (b : Branch) : b.node ∈ b.nodes := by
  cases b with
  | mk n cs => simp [nodes_mk, Branch.node]

theorem id_mem_ids (b : Branch) : b.id ∈ b.ids := List.mem_map_of_mem b.node_mem_nodes

theorem ids_mk (n : Node) (cs : List Branch) : ids ⟨n, cs⟩ = n.id :: cs.flatMap ids := by
  have hlist : (allNodes cs).map (·.id) = cs.flatMap ids := by
    induction cs with
    | nil => rfl
    | cons c cs ih =>
      rw [show allNodes (c :: cs) = c.nodes ++ allNodes cs from rfl, List.map_append, ih]
      rfl
  rw [ids, nodes_mk, List.map_cons, hlist]

theorem ids_eq (b : Branch) : b.ids = b.id :: b.children.flatMap ids := by
  cases b
  exact ids_mk _ _

theorem Shows.node? (h : b.Shows t) : t.node? b.id = some b.node := by
  cases b with
  | mk n cs => exact (shows_mk.mp h).1

theorem Shows.children (h : b.Shows t) : t.children b.id = b.children.map Branch.id := by
  cases b with
  | mk n cs =>
    obtain ⟨hn, hcs, -⟩ := shows_mk.mp h
    rw [show Branch.id ⟨n, cs⟩ = n.id from rfl, Tree.children_eq hn, hcs]
    rfl

theorem mem_nodes_of_mem_inner (hn : n ∈ b.inner) : n ∈ b.nodes := by
  cases b with
  | mk m cs => exact nodes_mk m cs ▸ List.mem_cons_of_mem _ hn

theorem Shows.of_mem_children (h : b.Shows t) (hc : c ∈ b.children) : c.Shows t := by
  cases b with
  | mk n cs => exact (shows_mk.mp h).2.2 c hc

theorem Shows.under_of_mem_children (ht : t.WellFormed) (h : b.Shows t) (hc : c ∈ b.children) :
    t.Under c.id b.id := by
  rw [← ht.mem_children_iff, h.children]
  exact List.mem_map_of_mem hc

/-- Every node of a branch that agrees with a tree is the node of the tree. -/
theorem Shows.node?_of_mem (h : b.Shows t) (hn : n ∈ b.nodes) : t.node? n.id = some n := by
  induction b with
  | mk m cs ih =>
    obtain ⟨hm, -, hcs⟩ := shows_mk.mp h
    rw [nodes_mk] at hn
    rcases List.mem_cons.mp hn with rfl | hn
    · exact hm
    · obtain ⟨c, hc, hn⟩ := mem_allNodes.mp hn
      exact ih c hc (hcs c hc) hn

/-- The nodes of a branch that agrees with a well-formed tree stand at or below its root. -/
theorem Shows.within_of_mem (ht : t.WellFormed) (h : b.Shows t) (hn : n ∈ b.nodes) :
    t.Within n.id b.id := by
  induction b with
  | mk m cs ih =>
    obtain ⟨hm, hcs, hall⟩ := shows_mk.mp h
    rw [nodes_mk] at hn
    rcases List.mem_cons.mp hn with rfl | hn
    · exact .refl
    · obtain ⟨c, hc, hn⟩ := mem_allNodes.mp hn
      have hmem : c.id ∈ t.children m.id := by
        rw [Tree.children_eq hm, hcs]
        exact List.mem_map_of_mem hc
      exact (ih c hc (hall c hc) hn).tail (ht.mem_children_iff.mp hmem)

theorem Shows.below_of_mem_inner (ht : t.WellFormed) (h : b.Shows t) (hn : n ∈ b.inner) :
    t.Below n.id b.id := by
  cases b with
  | mk m cs =>
    obtain ⟨c, hc, hn⟩ := mem_allNodes.mp hn
    have hmem : c.id ∈ t.children m.id := by
      rw [show m.id = Branch.id ⟨m, cs⟩ from rfl, h.children]
      exact List.mem_map_of_mem hc
    exact TransGen.tail' ((h.of_mem_children hc).within_of_mem ht hn) (ht.mem_children_iff.mp hmem)

/-- Conversely, whatever stands at or below the root is in the branch. -/
theorem Shows.mem_of_within (ht : t.WellFormed) (h : b.Shows t) (hw : t.Within n.id b.id)
    (hn : t.node? n.id = some n) : n ∈ b.nodes := by
  induction b with
  | mk m cs ih =>
    obtain ⟨hm, hcs, hall⟩ := shows_mk.mp h
    rw [nodes_mk]
    rcases ReflTransGen.cases_tail_iff _ _ _ |>.mp hw with heq | ⟨x, hx, hxm⟩
    · have hid : m.id = n.id := heq
      rw [← hid, hm] at hn
      exact Option.some.inj hn ▸ List.mem_cons_self
    · have hmem := ht.mem_children_iff.mpr hxm
      rw [show Branch.id ⟨m, cs⟩ = m.id from rfl, Tree.children_eq hm, hcs] at hmem
      obtain ⟨c, hc, rfl⟩ := List.mem_map.mp hmem
      exact List.mem_cons_of_mem _ (mem_allNodes.mpr ⟨c, hc, ih c hc (hall c hc) hx⟩)

/-- The identifiers of a branch that agrees with a well-formed tree are those at or below its
root. -/
theorem Shows.mem_ids_iff (ht : t.WellFormed) (h : b.Shows t) {x : NodeId} :
    x ∈ b.ids ↔ t.Within x b.id := by
  constructor
  · intro hx
    obtain ⟨n, hn, rfl⟩ := List.mem_map.mp hx
    exact h.within_of_mem ht hn
  · intro hw
    obtain ⟨n, hn⟩ : ∃ n, t.node? x = some n := by
      rcases hw.eq_or_below with rfl | hb
      · exact ⟨_, h.node?⟩
      · obtain ⟨p, hp, -⟩ := hb.exists_under
        exact hp.exists_node.imp fun _ => And.left
    obtain rfl := ht.keyed hn
    exact List.mem_map_of_mem (h.mem_of_within ht hw hn)

/-- No node occurs twice in a branch that agrees with a well-formed tree. -/
theorem Shows.nodup_ids (ht : t.WellFormed) (h : b.Shows t) : b.ids.Nodup := by
  induction b with
  | mk n cs ih =>
    have hunder : ∀ c ∈ cs, t.Under c.id n.id := fun c => h.under_of_mem_children ht
    have hshows : ∀ c ∈ cs, c.Shows t := fun c => h.of_mem_children
    have hchildren : (cs.map Branch.id).Nodup := h.children ▸ ht.nodup_children n.id
    rw [ids_mk, List.nodup_cons, List.nodup_flatMap]
    refine ⟨fun hn => ?_, fun c hc => ih c hc (hshows c hc), ?_⟩
    · obtain ⟨c, hc, hnc⟩ := List.mem_flatMap.mp hn
      exact ht.acyclic n.id (TransGen.tail' (((hshows c hc).mem_ids_iff ht).mp hnc) (hunder c hc))
    · rw [List.Nodup, List.pairwise_map] at hchildren
      refine hchildren.imp_of_mem fun hc hd hne x hxc hxd => hne ?_
      exact ht.eq_of_within_siblings (hunder _ hc) (hunder _ hd)
        (((hshows _ hc).mem_ids_iff ht).mp hxc) (((hshows _ hd).mem_ids_iff ht).mp hxd)

end Branch

namespace Tree

variable {t : Tree} {id c p : NodeId} {n : Node} {b : Branch}

/-! ### The way down is finite -/

open Classical in
/-- How many nodes stand at or below a node. -/
noncomputable def extent (t : Tree) (id : NodeId) : Nat :=
  (t.ids.toFinset.filter fun x => t.Within x id).card

theorem extent_le_size (t : Tree) (id : NodeId) : t.extent id ≤ t.size := by
  classical
  rw [← card_ids]
  exact Finset.card_filter_le _ _

theorem extent_pos (hn : t.node? id = some n) : 0 < t.extent id := by
  classical
  refine Finset.card_pos.mpr ⟨id, Finset.mem_filter.mpr ⟨?_, .refl⟩⟩
  exact List.mem_toFinset.mpr (mem_ids.mpr ⟨n, hn⟩)

namespace WellFormed

variable (h : t.WellFormed)
include h

theorem extent_lt (hc : t.Under c p) : t.extent c < t.extent p := by
  classical
  refine Finset.card_lt_card (Finset.ssubset_iff.mpr ⟨p, ?_, ?_⟩)
  · intro hp
    have hpc : t.Within p c := (Finset.mem_filter.mp hp).2
    exact h.acyclic p (TransGen.tail' hpc hc)
  · intro x hx
    rw [Finset.mem_filter, List.mem_toFinset, mem_ids]
    rcases Finset.mem_insert.mp hx with rfl | hx
    · exact ⟨h.exists_parent hc, .refl⟩
    · obtain ⟨hx, hxc⟩ := Finset.mem_filter.mp hx
      exact ⟨mem_ids.mp (List.mem_toFinset.mp hx), hxc.tail hc⟩

/-- Enough levels are enough. -/
theorem branchWithin_eq {fuel fuel' : Nat} (hf : t.extent id ≤ fuel) (hf' : t.extent id ≤ fuel') :
    t.branchWithin fuel id = t.branchWithin fuel' id := by
  induction fuel generalizing id fuel' with
  | zero =>
    cases hn : t.node? id with
    | some n => have := extent_pos hn; omega
    | none => cases fuel' <;> simp [branchWithin, hn]
  | succ fuel ih =>
    cases hn : t.node? id with
    | none => cases fuel' <;> simp [branchWithin, hn]
    | some n =>
      have hpos := extent_pos hn
      obtain ⟨fuel', rfl⟩ := Nat.exists_eq_succ_of_ne_zero (show fuel' ≠ 0 by omega)
      simp only [branchWithin, hn, Option.map_some, Option.some.injEq, Branch.mk.injEq, true_and]
      refine List.filterMap_congr fun c hc => ?_
      have hlt := h.extent_lt (h.mem_children_iff.mp (children_eq hn ▸ hc))
      exact ih (by omega) (by omega)

/-- The branch of a node, from those of its children. -/
theorem branch?_eq (id : NodeId) :
    t.branch? id = (t.node? id).map fun n => ⟨n, n.children.filterMap t.branch?⟩ := by
  have hsize : t.branch? id = t.branchWithin (t.size + 1) id :=
    h.branchWithin_eq (t.extent_le_size id) ((t.extent_le_size id).trans (Nat.le_succ _))
  rw [hsize, branchWithin]
  rfl

/-- The branch of a node is the one that agrees with the tree. -/
theorem branch?_eq_some_iff : t.branch? id = some b ↔ b.id = id ∧ b.Shows t := by
  constructor
  · induction hk : t.extent id using Nat.strong_induction_on generalizing id b with
    | _ k ih =>
      intro hb
      rw [h.branch?_eq] at hb
      obtain ⟨n, hn, rfl⟩ := Option.map_eq_some_iff.mp hb
      have hid := h.keyed hn
      -- Branches of children have a smaller extent.
      have hall : ∀ c ∈ n.children, ∃ b, t.branch? c = some b ∧ b.id = c ∧ b.Shows t := by
        intro c hc
        have hcp : t.Under c id := h.mem_children_iff.mp (children_eq hn ▸ hc)
        obtain ⟨m, hm, -⟩ := hcp.exists_node
        have hsome : t.branch? c = some ⟨m, m.children.filterMap t.branch?⟩ := by
          rw [h.branch?_eq, hm, Option.map_some]
        exact ⟨_, hsome, ih _ (hk ▸ h.extent_lt hcp) rfl hsome⟩
      refine ⟨hid, Branch.shows_mk.mpr ⟨hid.symm ▸ hn, ?_, ?_⟩⟩
      · have hids : n.children.filterMap (fun c => (t.branch? c).map Branch.id) =
            n.children.filterMap some := by
          refine List.filterMap_congr fun c hc => ?_
          obtain ⟨b, hb, hbc, -⟩ := hall c hc
          rw [hb, Option.map_some, hbc]
        rw [List.map_filterMap, hids, List.filterMap_some]
      · intro c hc
        obtain ⟨x, hx, hxc⟩ := List.mem_filterMap.mp hc
        obtain ⟨b, hb, -, hshow⟩ := hall x hx
        exact Option.some.inj (hb.symm.trans hxc) ▸ hshow
  · rintro ⟨rfl, hb⟩
    induction b with
    | mk n cs ih =>
      obtain ⟨hn, hcs, hall⟩ := Branch.shows_mk.mp hb
      rw [h.branch?_eq, show Branch.id ⟨n, cs⟩ = n.id from rfl, hn, Option.map_some, hcs,
        List.filterMap_map]
      have hmap : cs.filterMap (t.branch? ∘ Branch.id) = cs.filterMap some :=
        List.filterMap_congr fun c hc => ih c hc (hall c hc)
      rw [hmap, List.filterMap_some]

/-- Every node has a branch. -/
theorem exists_branch (hn : t.node? id = some n) :
    ∃ b, t.branch? id = some b ∧ b.node = n ∧ b.Shows t := by
  have hb : t.branch? id = some ⟨n, n.children.filterMap t.branch?⟩ := by
    rw [h.branch?_eq, hn, Option.map_some]
  exact ⟨_, hb, rfl, (h.branch?_eq_some_iff.mp hb).2⟩

/-- The nodes of a branch are those at or below its root. -/
theorem mem_branchNodes_iff {root : NodeId} :
    n ∈ t.branchNodes root ↔ t.node? n.id = some n ∧ t.Within n.id root := by
  cases hb : t.branch? root with
  | none =>
    have hroot : t.node? root = none := by
      by_contra hne
      obtain ⟨m, hm⟩ := Option.ne_none_iff_exists'.mp hne
      obtain ⟨b, hb', -⟩ := h.exists_branch hm
      exact Option.some_ne_none _ (hb'.symm.trans hb)
    simp only [branchNodes, hb, List.not_mem_nil, false_iff, not_and]
    intro hn hw
    obtain ⟨m, hm⟩ := h.exists_of_within hw hn
    exact Option.some_ne_none _ (hm.symm.trans hroot)
  | some b =>
    obtain ⟨rfl, hshow⟩ := h.branch?_eq_some_iff.mp hb
    simp only [branchNodes, hb]
    exact ⟨fun hn => ⟨hshow.node?_of_mem hn, hshow.within_of_mem h hn⟩,
      fun ⟨hn, hw⟩ => hshow.mem_of_within h hw hn⟩

end WellFormed

end Tree

end ContentTree
