import ContentTree.Proofs.Json.Token
import ContentTree.Proofs.Session.Reach
import ContentTree.Proofs.Text.Search
import ContentTree.Proofs.Tree.Runs

/-!
# Traversals

The ways through a tree: down from a node to all nodes below it, up to its ancestors, to the node
next to it, and by its place from the root. In a well-formed tree they agree with each other, and
the walks that remember what they have visited never meet a node again.

## Main definitions

* `Tree.stackWalk`, `Tree.climb`: the way down and the way up, ended by the first repetition.
* `Tree.visit`: a visit to a node and all below it, one after the other.
* `Tree.follow`, `Tree.indices`: the way down by indices, and the indices of a place.

## Main results

* `WellFormed.mem_descendants_iff`, `WellFormed.descendants_eq`: what is below a node, in order.
* `WellFormed.stackWalk_eq`, `WellFormed.climb_eq`: nothing is met twice.
* `WellFormed.visit_eq`: a visit is a fold over the visible nodes.
* `WellFormed.traversals_agree`: all ways through a tree agree.
-/

namespace ContentTree

open Relation

variable {t : Tree}

/-! ### The way down -/

namespace Branch

variable {b : Branch} {bs : List Branch}

theorem allNodes_eq (bs : List Branch) : allNodes bs = bs.flatMap nodes := by
  induction bs with
  | nil => rfl
  | cons b bs ih => rw [List.flatMap_cons, ← ih]; rfl

theorem map_id_inner (b : Branch) : b.inner.map (·.id) = b.children.flatMap ids := by
  rw [inner, allNodes_eq, List.map_flatMap]
  rfl

theorem Shows.descendants_eq (ht : t.WellFormed) (h : b.Shows t) :
    t.descendants b.id = b.children.flatMap ids := by
  rw [Tree.descendants, ht.branch?_eq_some_iff.mpr ⟨rfl, h⟩, ← map_id_inner]

theorem Shows.visibleNodes_eq (ht : t.WellFormed) (h : b.Shows t) :
    t.visibleNodes b.id = b.visible := by
  rw [Tree.visibleNodes, ht.branch?_eq_some_iff.mpr ⟨rfl, h⟩]

theorem Shows.ids_eq (ht : t.WellFormed) (h : b.Shows t) : b.ids = b.id :: t.descendants b.id := by
  rw [Branch.ids_eq, h.descendants_eq ht]

end Branch

namespace Tree

variable {a p x y : NodeId} {n : Node} {b : Branch} {bs : List Branch} {fuel fuel' : Nat}

/-- A walk over the nodes on a stack and all below them. The first node that was visited before ends
the walk. -/
def stackWalk (t : Tree) : (fuel : Nat) → (visited stack : List NodeId) → List NodeId
  | 0, _, _ => []
  | _ + 1, _, [] => []
  | fuel + 1, visited, id :: stack =>
    if id ∈ visited then [] else id :: stackWalk t fuel (id :: visited) (t.children id ++ stack)

/-- The way up from a node. The first node that was visited before ends it. -/
def climb (t : Tree) : (fuel : Nat) → (visited : List NodeId) → Option NodeId → List NodeId
  | 0, _, _ => []
  | _ + 1, _, none => []
  | fuel + 1, visited, some id =>
    if id ∈ visited then [] else id :: climb t fuel (id :: visited) (t.parent? id)

/-- The nodes on the stack stand for the branches that are still to be walked over. Each of their
nodes is met once. -/
theorem stackWalk_map_id {visited : List NodeId} (hshow : ∀ b ∈ bs, b.Shows t)
    (hnodup : (bs.flatMap Branch.ids).Nodup) (hvisited : ∀ x ∈ bs.flatMap Branch.ids, x ∉ visited)
    (hfuel : (bs.flatMap Branch.ids).length ≤ fuel) :
    t.stackWalk fuel visited (bs.map Branch.id) = bs.flatMap Branch.ids := by
  induction fuel generalizing visited bs with
  | zero =>
    cases bs with
    | nil => rfl
    | cons b bs =>
      rw [List.flatMap_cons, Branch.ids_eq] at hfuel
      exact absurd hfuel nofun
  | succ fuel ih =>
    cases bs with
    | nil => rfl
    | cons b bs =>
      rw [List.forall_mem_cons] at hshow
      -- The first branch makes way for those of its children.
      have hsplit : (b :: bs).flatMap Branch.ids =
          b.id :: (b.children ++ bs).flatMap Branch.ids := by
        rw [List.flatMap_cons, Branch.ids_eq, List.flatMap_append, List.cons_append]
      rw [hsplit] at hnodup hvisited hfuel ⊢
      rw [List.nodup_cons] at hnodup
      rw [List.forall_mem_cons] at hvisited
      rw [List.map_cons, stackWalk, if_neg hvisited.1, hshow.1.children, ← List.map_append, ih]
      · exact fun c hc => (List.mem_append.mp hc).elim hshow.1.of_mem_children (hshow.2 c)
      · exact hnodup.2
      · intro x hx hmem
        obtain rfl | hmem := List.mem_cons.mp hmem
        · exact hnodup.1 hx
        · exact hvisited.2 x hx hmem
      · exact Nat.le_of_succ_le_succ hfuel

namespace WellFormed

variable (h : t.WellFormed)
include h

/-- A node of a tree is the root of a branch. -/
theorem absent_or_shows (a : NodeId) : t.node? a = none ∨ ∃ b : Branch, b.id = a ∧ b.Shows t := by
  cases ha : t.node? a with
  | none => exact .inl rfl
  | some n =>
    obtain ⟨b, hb, -⟩ := h.exists_branch ha
    exact .inr ⟨b, h.branch?_eq_some_iff.mp hb⟩

theorem descendants_of_none (ha : t.node? a = none) : t.descendants a = [] := by
  rw [descendants, h.branch?_eq, ha]
  rfl

/-- What is below a node are its children, each followed by what is below it. -/
theorem descendants_eq (a : NodeId) :
    t.descendants a = (t.children a).flatMap fun c => c :: t.descendants c := by
  obtain ha | ⟨b, rfl, hshow⟩ := h.absent_or_shows a
  · rw [h.descendants_of_none ha, children_of_none ha, List.flatMap_nil]
  · rw [hshow.descendants_eq h, hshow.children, List.flatMap_map]
    exact List.flatMap_congr fun c hc => (hshow.of_mem_children hc).ids_eq h

theorem mem_descendants_iff : x ∈ t.descendants a ↔ t.Below x a := by
  obtain ha | ⟨b, rfl, hshow⟩ := h.absent_or_shows a
  · rw [h.descendants_of_none ha]
    refine ⟨nofun, fun hb => ?_⟩
    obtain ⟨m, hm⟩ := h.exists_ancestor hb
    exact absurd (ha.symm.trans hm) nofun
  · -- Below a node is what is within its branch and is not the node itself.
    have hnodup := hshow.nodup_ids h
    have hmem := hshow.mem_ids_iff (x := x) h
    rw [hshow.ids_eq h] at hnodup hmem
    constructor
    · intro hx
      refine (Within.eq_or_below (hmem.mp (List.mem_cons_of_mem _ hx))).resolve_left ?_
      rintro rfl
      exact (List.nodup_cons.mp hnodup).1 hx
    · intro hx
      refine (List.mem_cons.mp (hmem.mpr hx.within)).resolve_left ?_
      rintro rfl
      exact h.acyclic _ hx

theorem nodup_descendants (a : NodeId) : (t.descendants a).Nodup := by
  obtain ha | ⟨b, rfl, hshow⟩ := h.absent_or_shows a
  · rw [h.descendants_of_none ha]
    exact List.nodup_nil
  · have hnodup := hshow.nodup_ids h
    rw [hshow.ids_eq h] at hnodup
    exact (List.nodup_cons.mp hnodup).2

theorem length_descendants_le (a : NodeId) : (t.descendants a).length ≤ t.size := by
  -- They are among the nodes of the table, and each of them counts once.
  rw [← card_ids, ← List.toFinset_card_of_nodup (h.nodup_descendants a)]
  refine Finset.card_le_card fun x hx => ?_
  rw [List.mem_toFinset] at hx ⊢
  obtain ⟨p, hp, -⟩ := (h.mem_descendants_iff.mp hx).exists_under
  exact mem_ids.mpr (hp.exists_node.imp fun _ => And.left)

/-- The walk with a stack never meets a node again. -/
theorem stackWalk_eq (a : NodeId) (hfuel : t.size ≤ fuel) :
    t.stackWalk fuel [a] (t.children a) = t.descendants a := by
  have hlength := (h.length_descendants_le a).trans hfuel
  obtain ha | ⟨b, rfl, hshow⟩ := h.absent_or_shows a
  · rw [h.descendants_of_none ha, children_of_none ha]
    cases fuel <;> rfl
  · have hnodup := h.nodup_descendants b.id
    have hself : ∀ x ∈ t.descendants b.id, x ∉ [b.id] := by
      intro x hx hmem
      obtain rfl := List.mem_singleton.mp hmem
      exact h.acyclic _ (h.mem_descendants_iff.mp hx)
    rw [hshow.descendants_eq h] at hlength hnodup hself ⊢
    rw [hshow.children]
    exact stackWalk_map_id (fun c => hshow.of_mem_children) hnodup hself hlength

/-! ### The way up -/

/-- Enough steps up are enough. -/
theorem upFrom_eq (hf : t.depth x ≤ fuel) (hf' : t.depth x ≤ fuel') :
    t.upFrom fuel (t.parent? x) = t.upFrom fuel' (t.parent? x) := by
  induction fuel generalizing x fuel' with
  | zero =>
    cases hp : t.parent? x with
    | none => rw [upFrom_none, upFrom_none]
    | some p => exact absurd (h.depth_lt hp) (by omega)
  | succ fuel ih =>
    cases hp : t.parent? x with
    | none => rw [upFrom_none, upFrom_none]
    | some p =>
      have hlt := h.depth_lt hp
      obtain ⟨f, rfl⟩ : ∃ f, fuel' = f + 1 := ⟨fuel' - 1, by omega⟩
      have hrest : t.upFrom fuel (t.parent? p) = t.upFrom f (t.parent? p) :=
        ih (by omega) (by omega)
      rw [upFrom, upFrom, hrest]

theorem ancestors_eq (hp : t.Under x p) : t.ancestors x = p :: t.ancestors p := by
  have hfuel : t.upFrom t.size (t.parent? x) = t.upFrom (t.size + 1) (t.parent? x) :=
    h.upFrom_eq (t.depth_le_size x) ((t.depth_le_size x).trans (Nat.le_succ _))
  rw [ancestors, hfuel, hp, upFrom]
  rfl

/-- The nodes on the way up are at or below the one that was reached, so the next one is new. -/
theorem climb_eq_upFrom {visited : List NodeId} (hvisited : ∀ v ∈ visited, t.Within v x) :
    t.climb fuel visited (t.parent? x) = t.upFrom fuel (t.parent? x) := by
  induction fuel generalizing visited x with
  | zero => rfl
  | succ fuel ih =>
    cases hp : t.parent? x with
    | none => rfl
    | some p =>
      have hnew : p ∉ visited := fun hmem =>
        h.acyclic x (TransGen.head' hp (hvisited p hmem))
      rw [climb, if_neg hnew, upFrom, ih]
      exact List.forall_mem_cons.mpr ⟨.refl, fun v hv => (hvisited v hv).tail hp⟩

/-- The way up never meets a node again. -/
theorem climb_eq (x : NodeId) (hfuel : t.size ≤ fuel) :
    t.climb fuel [x] (t.parent? x) = t.ancestors x := by
  rw [h.climb_eq_upFrom (List.forall_mem_singleton.mpr .refl), ancestors]
  exact h.upFrom_eq ((t.depth_le_size x).trans hfuel) (t.depth_le_size x)

end WellFormed

/-! ### Visits -/

/-- A visit to a node and to all below it in document order, except for what is inside a text. A
child that does not name the node as its parent is passed over, and so is an ancestor. -/
def visit {σ : Type} (t : Tree) (f : σ → Node → σ) : (fuel : Nat) → σ → NodeId → σ
  | 0, s, _ => s
  | fuel + 1, s, id =>
    match t.node? id with
    | none => s
    | some n =>
      if n.kind.isText then f s n
      else
        (n.children.filter fun c => t.parent? c = some n.id && !t.isAncestor c n.id).foldl
          (visit t f fuel) (f s n)

/-- Collects the contents of texts. -/
def collectText (text : String) (n : Node) : String :=
  match n.kind.textContent? with
  | some content => text ++ content
  | none => text

/-- Counts nodes by the word for their kind. -/
def countKind (counts : Std.ExtTreeMap String Nat) (n : Node) : Std.ExtTreeMap String Nat :=
  counts.alter n.kind.word fun k => some (k.getD 0 + 1)

theorem textContent_eq_foldl (t : Tree) (a : NodeId) :
    t.textContent a = (t.visibleNodes a).foldl collectText "" := by
  rw [textContent, String.join, List.foldl_filterMap]
  refine List.foldl_ext _ _ _ fun text n _ => ?_
  rw [collectText]
  cases n.kind.textContent? <;> rfl

namespace WellFormed

variable (h : t.WellFormed)
include h

/-- The children of a node name it as their parent, and none of them is an ancestor of it. -/
theorem filter_visited (hn : t.node? n.id = some n) :
    n.children.filter (fun c => t.parent? c = some n.id && !t.isAncestor c n.id) = n.children := by
  rw [List.filter_eq_self]
  intro c hc
  have hunder : t.parent? c = some n.id := h.mem_children_iff.mp (children_eq hn ▸ hc)
  have hnot : ¬ t.isAncestor c n.id = true := fun hanc =>
    h.acyclic c (TransGen.head hunder (h.isAncestor_iff.mp hanc))
  simp [hnot, hunder]

theorem visit_of_shows {σ : Type} (f : σ → Node → σ) (hshow : b.Shows t)
    (hfuel : t.extent b.id ≤ fuel) (s : σ) :
    t.visit f fuel s b.id = b.visible.foldl f s := by
  induction b generalizing fuel s with
  | mk n cs ih =>
    have hn : t.node? n.id = some n := hshow.node?
    have hpos : 0 < t.extent n.id := extent_pos hn
    rw [Branch.id, Branch.node] at hfuel
    obtain ⟨k, rfl⟩ : ∃ k, fuel = k + 1 := ⟨fuel - 1, by omega⟩
    rw [visit, Branch.id, Branch.node, hn, Branch.visible]
    dsimp only
    split
    next => rfl
    next =>
      -- No child is passed over, and the branches of the children are visited in turn.
      have hcs : n.children = cs.map Branch.id := (Branch.shows_mk.mp hshow).2.1
      rw [h.filter_visited hn, hcs, listVisible_eq, List.foldl_cons, List.foldl_flatMap,
        List.foldl_map]
      refine List.foldl_ext _ _ _ fun s c hc => ?_
      have hlt : t.extent c.id < t.extent n.id := h.extent_lt (hshow.under_of_mem_children h hc)
      exact ih c hc (hshow.of_mem_children hc) (by omega) s

/-- A visit is a fold over the visible nodes. -/
theorem visit_eq {σ : Type} (f : σ → Node → σ) (a : NodeId) (hfuel : t.size ≤ fuel) (s : σ) :
    t.visit f fuel s a = (t.visibleNodes a).foldl f s := by
  obtain ha | ⟨b, rfl, hshow⟩ := h.absent_or_shows a
  · rw [visibleNodes, h.branch?_eq, ha]
    cases fuel with
    | zero => rfl
    | succ fuel => rw [visit, ha]; rfl
  · rw [hshow.visibleNodes_eq h, h.visit_of_shows f hshow ((t.extent_le_size _).trans hfuel)]

omit h in
/-- Where nothing is inside a text, all nodes are visible. -/
theorem visible_eq_nodes (hshow : b.Shows t)
    (hleaf : ∀ n ∈ b.nodes, n.kind.isText = true → n.children = []) : b.visible = b.nodes := by
  induction b with
  | mk n cs ih =>
    obtain ⟨-, hcs, hall⟩ := Branch.shows_mk.mp hshow
    rw [Branch.nodes_mk, List.forall_mem_cons] at hleaf
    rw [Branch.visible, Branch.nodes_mk, listVisible_eq, Branch.allNodes_eq]
    split
    next htext =>
      have hnil : cs.map Branch.id = [] := hcs.symm.trans (hleaf.1 htext)
      rw [List.map_eq_nil_iff.mp hnil, List.flatMap_nil]
    next =>
      refine congrArg (n :: ·) (List.flatMap_congr fun c hc => ih c hc (hall c hc) fun m hm => ?_)
      exact hleaf.2 m (Branch.mem_allNodes.mpr ⟨c, hc, hm⟩)

theorem visibleNodes_eq (hleaf : ∀ x ∈ a :: t.descendants a, ∀ n, t.node? x = some n →
    n.kind.isText = true → n.children = []) :
    t.visibleNodes a = (a :: t.descendants a).filterMap t.node? := by
  obtain ha | ⟨b, rfl, hshow⟩ := h.absent_or_shows a
  · rw [visibleNodes, h.branch?_eq, ha, h.descendants_of_none ha, List.filterMap_cons_none ha]
    rfl
  · rw [← hshow.ids_eq h] at hleaf ⊢
    have hnode : ∀ n ∈ b.nodes, t.node? n.id = some n := fun n => hshow.node?_of_mem
    have hvisible : b.visible = b.nodes := visible_eq_nodes hshow fun n hn =>
      hleaf n.id (List.mem_map_of_mem hn) n (hnode n hn)
    have hnodes : b.ids.filterMap t.node? = b.nodes.filterMap some := by
      rw [Branch.ids, List.filterMap_map]
      exact List.filterMap_congr hnode
    rw [hshow.visibleNodes_eq h, hnodes, List.filterMap_some, hvisible]

end WellFormed

/-! ### Siblings -/

theorem previousSibling?_eq (hn : t.node? x = some n) (hp : n.parent = some p) :
    t.previousSibling? x =
      if n.position = 0 then none else (t.children p)[n.position - 1]? := by
  rw [previousSibling?, hn, Option.bind_eq_bind, Option.bind_some, hp, Option.bind_eq_bind,
    Option.bind_some]

theorem nextSibling?_eq (hn : t.node? x = some n) (hp : n.parent = some p) :
    t.nextSibling? x = (t.children p)[n.position + 1]? := by
  rw [nextSibling?, hn, Option.bind_eq_bind, Option.bind_some, hp, Option.bind_eq_bind,
    Option.bind_some]

namespace WellFormed

variable (h : t.WellFormed)
include h

/-- The siblings of a node are its neighbours in the list of its parent. -/
theorem siblings_eq (hp : t.Under x p) : ∃ before after, t.children p = before ++ x :: after ∧
    t.previousSibling? x = before.getLast? ∧ t.nextSibling? x = after.head? := by
  obtain ⟨before, after, hsplit⟩ := List.append_of_mem (h.mem_children_iff.mpr hp)
  -- The index of the node is the number of siblings before it.
  have hget : (t.children p)[before.length]? = some x := by
    rw [hsplit, List.getElem?_append_right (Nat.le_refl _), Nat.sub_self]
    rfl
  obtain ⟨n, hn, hparent, hposition⟩ := h.child_iff.mp hget
  refine ⟨before, after, hsplit, ?_, ?_⟩
  · rw [previousSibling?_eq hn hparent, hposition, hsplit, List.getLast?_eq_getElem?]
    split
    next hzero => rw [List.length_eq_zero_iff.mp hzero]; rfl
    next hne => rw [List.getElem?_append_left (by omega)]
  · rw [nextSibling?_eq hn hparent, hposition, hsplit, List.getElem?_append_right (by omega),
      Nat.add_sub_cancel_left, List.getElem?_cons_succ, List.head?_eq_getElem?]

theorem nextSibling?_eq_some_iff : t.nextSibling? x = some y ↔
    ∃ p i, (t.children p)[i]? = some x ∧ (t.children p)[i + 1]? = some y := by
  constructor
  · intro hy
    obtain ⟨n, hn, hy⟩ := Option.bind_eq_some_iff.mp hy
    obtain ⟨p, hp, hy⟩ := Option.bind_eq_some_iff.mp hy
    exact ⟨p, n.position, h.child_iff.mpr ⟨n, hn, hp, rfl⟩, hy⟩
  · rintro ⟨p, i, hx, hy⟩
    obtain ⟨n, hn, hp, rfl⟩ := h.child_iff.mp hx
    rw [nextSibling?_eq hn hp, hy]

theorem previousSibling?_eq_some_iff : t.previousSibling? y = some x ↔
    ∃ p i, (t.children p)[i]? = some x ∧ (t.children p)[i + 1]? = some y := by
  constructor
  · intro hx
    obtain ⟨n, hn, hx⟩ := Option.bind_eq_some_iff.mp hx
    obtain ⟨p, hp, hx⟩ := Option.bind_eq_some_iff.mp hx
    split at hx
    next => exact nomatch hx
    next hne =>
      refine ⟨p, n.position - 1, hx, ?_⟩
      rw [Nat.sub_add_cancel (Nat.pos_of_ne_zero hne)]
      exact h.child_iff.mpr ⟨n, hn, hp, rfl⟩
  · rintro ⟨p, i, hx, hy⟩
    obtain ⟨n, hn, hp, hposition⟩ := h.child_iff.mp hy
    rw [previousSibling?_eq hn hp, hposition, if_neg (Nat.succ_ne_zero i), Nat.add_sub_cancel, hx]

theorem nextSibling?_iff : t.nextSibling? x = some y ↔ t.previousSibling? y = some x :=
  h.nextSibling?_eq_some_iff.trans h.previousSibling?_eq_some_iff.symm

end WellFormed

/-! ### Places -/

/-- The node that indices lead to, one child after the other. -/
def follow (t : Tree) (start : NodeId) (indices : List Nat) : Option NodeId :=
  indices.foldlM (fun id i => (t.children id)[i]?) start

/-- The indices that a place is written with. -/
def indices (place : String) : List Nat :=
  ((Text.pieces ['/'] place.toList).drop 1).map Decimal.value

/-- The index of a node among its siblings, if it has a parent. -/
def position? (t : Tree) (id : NodeId) : Option Nat :=
  (t.node? id).bind fun n => n.parent.map fun _ => n.position

/-- The indices among siblings from the root down to a node. -/
def positions (t : Tree) (id : NodeId) : List Nat :=
  ((id :: t.ancestors id).filterMap t.position?).reverse

theorem positionPath_eq (t : Tree) (id : NodeId) :
    t.positionPath id = String.join ((t.positions id).map fun i => "/" ++ Nat.repr i) := rfl

theorem position?_eq_none (hx : t.parent? x = none) : t.position? x = none := by
  rw [parent?, Option.bind_eq_none_iff] at hx
  exact Option.bind_eq_none_iff.mpr fun n hn => by rw [hx n hn]; rfl

theorem position?_eq (hn : t.node? x = some n) (hp : n.parent = some p) :
    t.position? x = some n.position := by
  rw [position?, hn, Option.bind_some, hp]
  rfl

/-- The indices are read off a place as they were written. -/
theorem indices_join (is : List Nat) :
    indices (String.join (is.map fun i => "/" ++ Nat.repr i)) = is := by
  have htext : (String.join (is.map fun i => "/" ++ Nat.repr i)).toList =
      [] ++ (is.map Decimal.digitChars).flatMap (['/'] ++ ·) := by
    rw [String.toList_join, List.flatMap_map, List.flatMap_map, List.nil_append]
    refine List.flatMap_congr fun i _ => ?_
    rw [String.toList_append, Nat.repr, String.toList_ofList, String.toList_ofList]
    rfl
  -- No digit is a separator.
  have hpieces : ∀ digits ∈ is.map Decimal.digitChars, Text.pieces ['/'] digits = [digits] := by
    intro digits hdigits
    obtain ⟨i, -, rfl⟩ := List.mem_map.mp hdigits
    exact Text.pieces_of_absent (Text.not_infix_of_notMem fun hmem =>
      absurd (Json.isDigit_of_mem_digitChars hmem) (by decide))
  have hvalue : Decimal.value ∘ Decimal.digitChars = id := funext Json.value_digitChars
  calc indices (String.join (is.map fun i => "/" ++ Nat.repr i))
    _ = ((Text.pieces ['/'] [] ++
          (is.map Decimal.digitChars).flatMap (Text.pieces ['/'])).drop 1).map Decimal.value := by
      rw [indices, htext, Text.pieces_flatMap (by decide)]
    _ = (is.map Decimal.digitChars).map Decimal.value := by
      rw [List.flatMap_congr hpieces, List.flatMap_singleton']
      rfl
    _ = is := by rw [List.map_map, hvalue, List.map_id]

namespace WellFormed

variable (h : t.WellFormed)
include h

theorem positions_eq (hn : t.node? x = some n) (hp : n.parent = some p) :
    t.positions x = t.positions p ++ [n.position] := by
  rw [positions, h.ancestors_eq (under_of_node? hn hp),
    List.filterMap_cons_some (position?_eq hn hp), List.reverse_cons, positions]

/-- The indices of a place lead from the topmost ancestor of a node to the node. -/
theorem follow_positions (x : NodeId) :
    t.follow ((t.ancestors x).getLastD x) (t.positions x) = some x := by
  -- By induction on the number of ancestors: the place of the parent and one more index.
  induction hk : t.depth x using Nat.strong_induction_on generalizing x with
  | _ k ih =>
    cases hparent : t.parent? x with
    | none =>
      have hroot : t.ancestors x = [] := by rw [ancestors, hparent, upFrom_none]
      rw [positions, hroot, List.filterMap_cons_none (position?_eq_none hparent)]
      rfl
    | some p =>
      have hp : t.Under x p := hparent
      obtain ⟨n, hn, hnp⟩ := hp.exists_node
      have hchild : (t.children p)[n.position]? = some x := h.child_iff.mpr ⟨n, hn, hnp, rfl⟩
      have htop := ih _ (hk ▸ h.depth_lt hp) p rfl
      rw [follow] at htop
      rw [h.ancestors_eq hp, List.getLastD_cons, h.positions_eq hn hnp, follow, List.foldlM_append,
        htop]
      simpa using hchild

end WellFormed

/-! ### All ways agree -/

/-- In a well-formed tree all ways through it agree.

* Below a node are the nodes of which it is an ancestor, each once and in document order: first a
  child, then what is below it. To remember what was visited makes no difference, neither on the way
  down nor on the way up.
* A visit, as it is made for the text of a node and for the counts of kinds, meets the node and what
  is below it in this order, if there is nothing inside a text.
* The siblings of a node are its neighbours in the list of its parent.
* The place of a node leads to it from its topmost ancestor. -/
theorem WellFormed.traversals_agree (h : t.WellFormed) (a x : NodeId) :
    ((t.descendants a).Nodup ∧
      t.descendants a = ((t.children a).flatMap fun c => c :: t.descendants c) ∧
      (x ∈ t.descendants a ↔ a ∈ t.ancestors x) ∧
      (t.isAncestor a x = true ↔ x ∈ t.descendants a) ∧
      ∀ fuel, t.size ≤ fuel → t.stackWalk fuel [a] (t.children a) = t.descendants a ∧
        t.climb fuel [x] (t.parent? x) = t.ancestors x) ∧
    (∀ fuel, t.size ≤ fuel →
      (∀ {σ : Type} (f : σ → Node → σ) (s : σ),
        t.visit f fuel s a = (t.visibleNodes a).foldl f s) ∧
      t.textContent a = t.visit collectText fuel "" a ∧
      t.kindCounts a = t.visit countKind fuel ∅ a) ∧
    ((∀ y ∈ a :: t.descendants a, ∀ n, t.node? y = some n → n.kind.isText = true →
        n.children = []) →
      t.visibleNodes a = (a :: t.descendants a).filterMap t.node?) ∧
    (∀ y, t.nextSibling? x = some y ↔ t.previousSibling? y = some x) ∧
    (∀ p, t.parent? x = some p → ∃ before after, t.children p = before ++ x :: after ∧
      t.previousSibling? x = before.getLast? ∧ t.nextSibling? x = after.head?) ∧
    t.follow ((t.ancestors x).getLastD x) (indices (t.positionPath x)) = some x := by
  have hmem : x ∈ t.descendants a ↔ a ∈ t.ancestors x :=
    h.mem_descendants_iff.trans h.mem_ancestors_iff.symm
  have hanc : t.isAncestor a x = true ↔ x ∈ t.descendants a :=
    h.isAncestor_iff.trans h.mem_descendants_iff.symm
  refine ⟨⟨h.nodup_descendants a, h.descendants_eq a, hmem, hanc, fun fuel hfuel => ?_⟩,
    fun fuel hfuel => ⟨fun f s => h.visit_eq f a hfuel s, ?_, ?_⟩, h.visibleNodes_eq,
    fun y => h.nextSibling?_iff, fun p hp => h.siblings_eq hp, ?_⟩
  · exact ⟨h.stackWalk_eq a hfuel, h.climb_eq x hfuel⟩
  · rw [textContent_eq_foldl, h.visit_eq _ a hfuel]
  · rw [h.visit_eq _ a hfuel]
    rfl
  · rw [positionPath_eq, indices_join]
    exact h.follow_positions x

/-- A page with a text and a paragraph of two texts. -/
def greeting : Tree :=
  (({} : Tree).load (.mk (some 1) { kind := .page "home" 0 false } none
    [.mk (some 2) { kind := .text "one" none } none [],
      .mk (some 3) { kind := .element "p" ∅ } none
        [.mk (some 4) { kind := .text "two" none } none [],
          .mk (some 5) { kind := .text "three" none } none []]])).2

theorem reachable_greeting : greeting.Reachable .successful :=
  .load .empty _ ⟨1, by decide⟩

/-- The page with its four nodes, and the first text of the paragraph. -/
theorem traversals_agree_greeting : greeting.stackWalk 5 [1] [2, 3] = [2, 3, 4, 5] ∧
    greeting.visit (fun ids n => ids ++ [n.id]) 5 [] 1 = [1, 2, 3, 4, 5] ∧
    greeting.visit collectText 5 "" 1 = "onetwothree" ∧
    greeting.previousSibling? 5 = some 4 ∧ greeting.positionPath 4 = "/1/0" ∧
    greeting.follow 1 (indices "/1/0") = some 4 := by
  obtain ⟨⟨-, -, -, -, hwalk⟩, hvisit, hleaf, hsibling, -, hfollow⟩ :=
    reachable_greeting.sound.toWellFormed.traversals_agree 1 4
  have hbelow : greeting.descendants 1 = [2, 3, 4, 5] := by decide
  have habove : greeting.ancestors 4 = [3, 1] := by decide
  have hplace : greeting.positionPath 4 = "/1/0" := by decide +kernel
  have hempty : ∀ y ∈ 1 :: greeting.descendants 1, ∀ n ∈ greeting.node? y,
      n.kind.isText = true → n.children = [] := by decide
  have hvisible := hleaf hempty
  obtain ⟨hfold, htext, -⟩ := hvisit 5 (by decide)
  rw [habove, hplace] at hfollow
  refine ⟨(hwalk 5 (by decide)).1.trans hbelow, ?_, ?_, (hsibling 5).mp (by decide), hplace,
    hfollow⟩
  · rw [hfold, hvisible, hbelow]
    decide
  · rw [← htext]
    decide

end Tree

end ContentTree
