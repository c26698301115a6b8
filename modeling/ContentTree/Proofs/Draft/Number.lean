import ContentTree.Proofs.Draft.Load
import ContentTree.Proofs.Tree.Branch

/-!
# Numbering snapshots

The nodes of a snapshot get their identifiers one after the other in document order. A node keeps
the identifier that it carries if no node before it has got that one, and otherwise it gets the one
after the highest so far. So the snapshot with all identifiers can be told beforehand.

## Main definitions

* `Snapshot.all`: the nodes of a snapshot in document order.
* `number`, `numbers`: the identifier of a node, and those of several nodes.
* `Snapshot.numbered`: a snapshot with the identifiers that its nodes get.

## Main results

* `number_some_eq_iff`: which nodes keep their identifiers.
* `Snapshot.carried_numbered`, `Snapshot.map_all_numbered`: numbering gives identifiers and changes
  nothing else.
-/

namespace ContentTree

variable {taken : List NodeId} {x c : NodeId} {ids : List (Option NodeId)}

/-! ### Numbers -/

/-- The highest of several identifiers. -/
def highest (taken : List NodeId) : NodeId :=
  taken.foldr max 0

theorem highest_append (taken rest : List NodeId) :
    highest (taken ++ rest) = max (highest taken) (highest rest) := by
  induction taken with
  | nil => exact (Nat.zero_max _).symm
  | cons x taken ih =>
    change max x (highest (taken ++ rest)) = max (max x (highest taken)) _
    rw [ih, max_assoc]

theorem le_highest (hx : x ∈ taken) : x ≤ highest taken := by
  obtain ⟨before, after, rfl⟩ := List.append_of_mem hx
  rw [highest_append]
  exact le_max_of_le_right (Nat.le_max_left x _)

/-- The identifier that a node gets after others: its own if that is left, or a new one. -/
def number (taken : List NodeId) : Option NodeId → NodeId
  | some id => if id ∈ taken then highest taken + 1 else id
  | none => highest taken + 1

theorem highest_succ_notMem (taken : List NodeId) : highest taken + 1 ∉ taken :=
  fun h => Nat.not_succ_le_self _ (le_highest h)

theorem number_notMem (taken : List NodeId) (id : Option NodeId) : number taken id ∉ taken := by
  cases id with
  | none => exact highest_succ_notMem taken
  | some id =>
    rw [number]
    split
    · exact highest_succ_notMem taken
    · assumption

/-- A node keeps its identifier exactly where no node before has got that. -/
theorem number_some_eq_iff : number taken (some c) = c ↔ c ∉ taken := by
  constructor
  · intro h
    exact h ▸ number_notMem taken (some c)
  · intro h
    rw [number, if_neg h]

/-- The identifiers that nodes get one after the other. -/
def numbers (taken : List NodeId) : List (Option NodeId) → List NodeId
  | [] => []
  | id :: ids => number taken id :: numbers (taken ++ [number taken id]) ids

theorem numbers_append (taken : List NodeId) (ids rest : List (Option NodeId)) :
    numbers taken (ids ++ rest) =
      numbers taken ids ++ numbers (taken ++ numbers taken ids) rest := by
  induction ids generalizing taken with
  | nil => simp [numbers]
  | cons id ids ih => simp [numbers, ih]

@[simp] theorem length_numbers (taken : List NodeId) (ids : List (Option NodeId)) :
    (numbers taken ids).length = ids.length := by
  induction ids generalizing taken with
  | nil => rfl
  | cons id ids ih => simp [numbers, ih]

theorem nodup_numbers (h : taken.Nodup) (ids : List (Option NodeId)) :
    (taken ++ numbers taken ids).Nodup := by
  induction ids generalizing taken with
  | nil => simpa [numbers] using h
  | cons id ids ih =>
    rw [numbers, List.append_cons]
    exact ih (h.append (List.nodup_singleton _) (by simpa using number_notMem taken id))

/-- Nodes that carry different identifiers keep them all. -/
theorem numbers_map_some {rest : List NodeId} (h : (taken ++ rest).Nodup) :
    numbers taken (rest.map some) = rest := by
  induction rest generalizing taken with
  | nil => rfl
  | cons x rest ih =>
    rw [List.append_cons] at h
    have hx : x ∉ taken := by
      have hnodup := (List.nodup_append.mp h).1
      simpa using (List.nodup_append.mp hnodup).2.2 x
    rw [List.map_cons, numbers, number_some_eq_iff.mpr hx, ih h]

/-- What a node gets depends on what those before it have got. -/
theorem getElem?_numbers {id : Option NodeId} {k : Nat} (hk : ids[k]? = some id) :
    (numbers taken ids)[k]? = some (number (taken ++ numbers taken (ids.take k)) id) := by
  obtain ⟨hlt, hget⟩ := List.getElem?_eq_some_iff.mp hk
  have hsplit : ids = ids.take k ++ id :: ids.drop (k + 1) := by
    rw [← hget, List.getElem_cons_drop, List.take_append_drop]
  have hlength : (numbers taken (ids.take k)).length = k := by simp [Nat.le_of_lt hlt]
  calc (numbers taken ids)[k]?
    _ = (numbers taken (ids.take k) ++
          numbers (taken ++ numbers taken (ids.take k)) (id :: ids.drop (k + 1)))[k]? := by
      rw [← numbers_append, ← hsplit]
    _ = some (number (taken ++ numbers taken (ids.take k)) id) := by
      rw [List.getElem?_append_right (by rw [hlength]), hlength, Nat.sub_self, numbers]
      rfl

theorem take_numbers (taken : List NodeId) (ids : List (Option NodeId)) (k : Nat) :
    (numbers taken ids).take k = numbers taken (ids.take k) := by
  induction ids generalizing taken k with
  | nil => simp [numbers]
  | cons id ids ih => cases k <;> simp [numbers, ih]

namespace Snapshot

/-! ### The nodes of a snapshot -/

/-- The nodes of a snapshot in document order, each with what is below it. -/
def all : Snapshot → List Snapshot
  | mk id content component ss => mk id content component ss :: listAll ss
where
  listAll : List Snapshot → List Snapshot
    | [] => []
    | s :: ss => all s ++ listAll ss

theorem all_mk (id : Option NodeId) (content : Content) (component : Option NodeId)
    (ss : List Snapshot) :
    all (mk id content component ss) = mk id content component ss :: ss.flatMap all := by
  have hlist : all.listAll ss = ss.flatMap all := by
    induction ss with
    | nil => rfl
    | cons s ss ih => rw [all.listAll, ih, List.flatMap_cons]
  rw [all, hlist]

/-- The snapshot of a branch has the nodes of the branch. -/
theorem map_all_ofBranch {α : Type} {f : Snapshot → α} {g : Node → α}
    (hfg : ∀ n ss, f (mk (some n.id) n.toContent n.component ss) = g n) (b : Branch) :
    (ofBranch b).all.map f = b.nodes.map g := by
  induction b with
  | mk n cs ih =>
    have hcs : ((ofBranch.ofBranches cs).flatMap fun s => s.all.map f) =
        (Branch.allNodes cs).map g := by
      induction cs with
      | nil => rfl
      | cons c cs ihs =>
        rw [ofBranch.ofBranches, List.flatMap_cons, ih c List.mem_cons_self,
          ihs fun c hc => ih c (List.mem_cons_of_mem _ hc)]
        exact List.map_append.symm
    rw [ofBranch, all_mk, List.map_cons, List.map_flatMap, hcs, hfg, Branch.nodes_mk,
      List.map_cons]

/-- The identifiers that the nodes of a snapshot carry. -/
def carried (s : Snapshot) : List (Option NodeId) :=
  s.all.map id?

theorem carried_mk (id : Option NodeId) (content : Content) (component : Option NodeId)
    (ss : List Snapshot) : carried (mk id content component ss) = id :: ss.flatMap carried := by
  rw [carried, all_mk, List.map_cons, List.map_flatMap]
  rfl

/-- The reference of a node, where it has one and carries an identifier. -/
def link? (s : Snapshot) : Option (NodeId × NodeId) :=
  s.id?.bind fun x => s.component?.map fun c => (x, c)

/-- The references to components among the nodes of a snapshot. -/
def links (s : Snapshot) : List (NodeId × NodeId) :=
  s.all.filterMap link?

theorem links_mk (x : NodeId) (content : Content) (component : Option NodeId)
    (ss : List Snapshot) : links (mk (some x) content component ss) =
      (component.map fun c => (x, c)).toList ++ ss.flatMap links := by
  rw [links, all_mk, List.filterMap_cons, List.filterMap_flatMap]
  cases component <;> rfl

/-! ### Numbered snapshots -/

/-- A snapshot with the identifiers that its nodes get. -/
def numbered (taken : List NodeId) : Snapshot → Snapshot
  | mk id content component ss =>
    mk (some (number taken id)) content component (numberedAll (taken ++ [number taken id]) ss)
where
  numberedAll (taken : List NodeId) : List Snapshot → List Snapshot
    | [] => []
    | s :: ss => numbered taken s :: numberedAll (taken ++ numbers taken s.carried) ss

/-- A snapshot is numbered in document order. -/
theorem carried_numbered (s : Snapshot) (taken : List NodeId) :
    (s.numbered taken).carried = (numbers taken s.carried).map some := by
  -- What has been given out grows from child to child.
  induction s generalizing taken with
  | mk id content component ss ih =>
    have hss : ∀ taken, (numbered.numberedAll taken ss).flatMap carried =
        (numbers taken (ss.flatMap carried)).map some := by
      clear taken
      intro taken
      induction ss generalizing taken with
      | nil => rfl
      | cons s ss ihs =>
        rw [numbered.numberedAll, List.flatMap_cons, List.flatMap_cons, numbers_append,
          List.map_append, ih s List.mem_cons_self,
          ihs (fun s hs => ih s (List.mem_cons_of_mem _ hs))]
    rw [numbered, carried_mk, carried_mk, numbers, List.map_cons, hss]

theorem filterMap_id?_numbered (s : Snapshot) (taken : List NodeId) :
    (s.numbered taken).all.filterMap id? = numbers taken s.carried := by
  have h := congrArg (List.filterMap fun o => o) (carried_numbered s taken)
  simpa [carried, List.filterMap_map, Function.comp_def] using h

/-- Numbering changes nothing but identifiers. -/
theorem map_all_numbered {α : Type} (f : Snapshot → α)
    (hf : ∀ id id' content component ss ss',
      f (mk id content component ss) = f (mk id' content component ss'))
    (s : Snapshot) (taken : List NodeId) : (s.numbered taken).all.map f = s.all.map f := by
  induction s generalizing taken with
  | mk id content component ss ih =>
    have hss : ∀ taken, (numbered.numberedAll taken ss).flatMap (fun s => s.all.map f) =
        ss.flatMap fun s => s.all.map f := by
      clear taken
      intro taken
      induction ss generalizing taken with
      | nil => rfl
      | cons s ss ihs =>
        rw [numbered.numberedAll, List.flatMap_cons, List.flatMap_cons, ih s List.mem_cons_self,
          ihs (fun s hs => ih s (List.mem_cons_of_mem _ hs))]
    rw [numbered, all_mk, all_mk, List.map_cons, List.map_cons, List.map_flatMap, List.map_flatMap,
      hss, hf]

end Snapshot

end ContentTree
