import ContentTree.Proofs.Tree.Branch
import Mathlib.Data.List.SplitBy

/-!
# Runs of texts

Among the children of a node, texts that stand side by side belong to one run, and every other child
is alone. A list of children that has been taken apart in some other way has been taken apart into
its runs as soon as the first members of the parts show no two texts side by side, provided that a
part of several members consists of texts.

## Main definitions

* `Tree.isText`, `Tree.ownText`: texts and their contents.
* `Tree.runs`, `Tree.runText`: the runs among the children of a node, and what a run says.
* `Tree.Separate`: no two texts stand side by side.

## Main results

* `Tree.runs_eq`: the runs, from parts with separate first members.
* `Tree.exists_run_of_adjacent`: two texts side by side belong to one run.
* `WellFormed.textContent_eq`: the text of a node, from those of its children.
-/

namespace ContentTree

namespace Kind

/-- A kind whose text, if it is one, is the given one. -/
def withText (content : String) : Kind → Kind
  | text _ contentType => text content contentType
  | k => k

theorem withText_textContent (k : Kind) : k.withText (k.textContent?.getD "") = k := by
  cases k <;> rfl

theorem textContent?_withText {k : Kind} (h : k.isText = true) (content : String) :
    (k.withText content).textContent? = some content := by
  cases k with
  | text => rfl
  | _ => exact nomatch h

theorem textContent?_of_not_text {k : Kind} (h : k.isText = false) : k.textContent? = none := by
  cases k with
  | text => exact nomatch h
  | _ => rfl

end Kind

namespace Tree

variable {t : Tree} {z x y id : NodeId} {n : Node} {xs ys : List NodeId}

/-- Whether a node is a text. -/
def isText (t : Tree) (id : NodeId) : Bool :=
  (t.node? id).any (·.kind.isText)

/-- The content of a text, and nothing for any other node. -/
def ownText (t : Tree) (id : NodeId) : String :=
  ((t.node? id).bind (·.kind.textContent?)).getD ""

/-- The children of a node in their runs: texts that stand side by side are in one, and every other
child is alone. -/
def runs (t : Tree) (z : NodeId) : List (List NodeId) :=
  (t.children z).splitBy fun x y => t.isText x && t.isText y

/-- What the members of a run say, one after the other. -/
def runText (t : Tree) (run : List NodeId) : String :=
  String.join (run.map t.ownText)

/-- No two texts stand side by side among the children of a node. -/
def Separate (t : Tree) (z : NodeId) : Prop :=
  (t.children z).IsChain fun x y => ¬ (t.isText x = true ∧ t.isText y = true)

theorem isText_eq (h : t.node? id = some n) : t.isText id = n.kind.isText := by
  simp [isText, h]

theorem ownText_eq (h : t.node? id = some n) : t.ownText id = n.kind.textContent?.getD "" := by
  simp [ownText, h]

@[simp] theorem runText_singleton (t : Tree) (x : NodeId) : t.runText [x] = t.ownText x := by
  simp [runText, String.join_cons]

theorem runText_append (t : Tree) (xs ys : List NodeId) :
    t.runText (xs ++ ys) = t.runText xs ++ t.runText ys := by
  rw [runText, List.map_append, String.join_append]
  rfl

/-! ### Parts of a list -/

/-- A list of children that has been taken apart. -/
def assembled (gs : List (NodeId × List NodeId)) : List NodeId :=
  gs.flatMap fun g => g.1 :: g.2

theorem length_le_length_assembled (gs : List (NodeId × List NodeId)) :
    gs.length ≤ (assembled gs).length := by
  induction gs with
  | nil => exact Nat.le_refl _
  | cons g gs ih =>
    rw [assembled] at ih ⊢
    rw [List.flatMap_cons, List.length_append, List.length_cons, List.length_cons]
    omega

/-- Parts of which only the first members have ever been there. -/
theorem eq_nil_of_assembled_eq {gs : List (NodeId × List NodeId)}
    (h : assembled gs = gs.map Prod.fst) : ∀ g ∈ gs, g.2 = [] := by
  induction gs with
  | nil => exact fun g hg => nomatch hg
  | cons g gs ih =>
    have hlist : g.2 ++ assembled gs = gs.map Prod.fst := (List.cons.inj h).2
    have hlength := congrArg List.length hlist
    rw [List.length_append, List.length_map] at hlength
    have hle := length_le_length_assembled gs
    have hnil : g.2 = [] := List.length_eq_zero_iff.mp (by omega)
    rw [hnil, List.nil_append] at hlist
    exact List.forall_mem_cons.mpr ⟨hnil, ih hlist⟩

/-- Neighbouring first members belong to neighbouring parts. -/
theorem exists_parts {gs : List (NodeId × List NodeId)}
    (h : gs.map Prod.fst = xs ++ x :: y :: ys) :
    ∃ gs₁ rest rest' gs₂, gs = gs₁ ++ (x, rest) :: (y, rest') :: gs₂ ∧ gs₁.map Prod.fst = xs ∧
      gs₂.map Prod.fst = ys := by
  obtain ⟨gs₁, gs', rfl, hxs, hgs'⟩ := List.map_eq_append_iff.mp h
  obtain ⟨⟨x', rest⟩, gs'', rfl, hx, hgs''⟩ := List.map_eq_cons_iff.mp hgs'
  obtain ⟨⟨y', rest'⟩, gs₂, rfl, hy, hys⟩ := List.map_eq_cons_iff.mp hgs''
  obtain rfl : x' = x := hx
  obtain rfl : y' = y := hy
  exact ⟨gs₁, rest, rest', gs₂, rfl, hxs, hys⟩

/-- Parts are the runs if their first members show no two texts side by side, and those with several
members consist of texts. -/
theorem runs_eq {gs : List (NodeId × List NodeId)} (hlist : t.children z = assembled gs)
    (htexts : ∀ g ∈ gs, g.2 ≠ [] → ∀ x ∈ g.1 :: g.2, t.isText x = true)
    (hheads : (gs.map Prod.fst).IsChain fun x y => ¬ (t.isText x = true ∧ t.isText y = true)) :
    t.runs z = gs.map fun g => g.1 :: g.2 := by
  rw [runs, List.splitBy_eq_iff]
  refine ⟨hlist, ?_, ?_, ?_⟩
  · simp
  · -- A part with several members is a chain of texts.
    intro run hrun
    obtain ⟨g, hg, rfl⟩ := List.mem_map.mp hrun
    by_cases hsingle : g.2 = []
    · rw [hsingle]
      exact .singleton _
    · have hall := htexts g hg hsingle
      refine (List.pairwise_of_forall_mem_list fun x hx y hy => ?_).isChain
      rw [hall x hx, hall y hy]
      rfl
  · rw [List.isChain_map] at hheads ⊢
    refine hheads.imp_of_mem_imp fun g h hg _ hgh => ⟨by simp, by simp, ?_⟩
    -- The last member of a part is a text only if the first one is.
    have hlast : t.isText ((g.1 :: g.2).getLast (by simp)) = true → t.isText g.1 = true := by
      intro hlast
      by_cases hsingle : g.2 = []
      · simpa [hsingle] using hlast
      · exact htexts g hg hsingle _ List.mem_cons_self
    rw [List.head_cons, Bool.and_eq_false_iff]
    by_contra hboth
    rw [not_or, Bool.not_eq_false, Bool.not_eq_false] at hboth
    exact hgh ⟨hlast hboth.1, hboth.2⟩

theorem eq_map_singleton_of_forall {gs : List (List NodeId)} (h : ∀ g ∈ gs, g.length = 1) :
    gs = gs.flatten.map fun x => [x] := by
  induction gs with
  | nil => rfl
  | cons g gs ih =>
    obtain ⟨x, rfl⟩ := List.length_eq_one_iff.mp (h g List.mem_cons_self)
    rw [List.flatten_cons, List.map_append, ← ih fun g hg => h g (List.mem_cons_of_mem _ hg)]
    rfl

/-- Two texts that stand side by side belong to one run. -/
theorem exists_run_of_adjacent (hlist : t.children z = xs ++ x :: y :: ys)
    (hx : t.isText x = true) (hy : t.isText y = true) : ∃ run ∈ t.runs z, 2 ≤ run.length := by
  by_contra hnone
  simp only [not_exists, not_and, not_le] at hnone
  have hsingle : ∀ run ∈ t.runs z, run.length = 1 := fun run hrun => by
    have hpos := List.length_pos_iff.mpr (List.ne_nil_of_mem_splitBy hrun)
    have hlt := hnone run hrun
    omega
  have hruns := eq_map_singleton_of_forall hsingle
  rw [runs, List.flatten_splitBy] at hruns
  have hchain := List.isChain_getLast_head_splitBy (fun x y => t.isText x && t.isText y)
    (t.children z)
  rw [hruns, List.isChain_map, hlist, List.isChain_append_cons_cons] at hchain
  obtain ⟨_, _, hxy⟩ := hchain.2.1
  simp [hx, hy] at hxy

/-! ### The text of a node -/

theorem listVisible_eq (cs : List Branch) :
    Branch.visible.listVisible cs = cs.flatMap Branch.visible := by
  induction cs with
  | nil => rfl
  | cons c cs ih => rw [Branch.visible.listVisible, ih, List.flatMap_cons]

theorem join_flatMap {α : Type} (f : α → List String) (xs : List α) :
    String.join (xs.flatMap f) = String.join (xs.map fun x => String.join (f x)) := by
  induction xs with
  | nil => rfl
  | cons x xs ih => rw [List.flatMap_cons, String.join_append, ih, List.map_cons, String.join_cons]

/-- What a node says: a text its content, and any other node what its children say. -/
theorem WellFormed.textContent_eq (h : t.WellFormed) (z : NodeId) :
    t.textContent z = if t.isText z = true then t.ownText z
      else String.join ((t.children z).map t.textContent) := by
  cases hn : t.node? z with
  | none =>
    rw [textContent, visibleNodes, h.branch?_eq, hn, children_of_none hn]
    simp [isText, hn]
  | some n =>
    have hbranch : t.branch? z = some ⟨n, n.children.filterMap t.branch?⟩ := by
      rw [h.branch?_eq, hn, Option.map_some]
    rw [isText_eq hn, ownText_eq hn, children_eq hn, textContent, visibleNodes, hbranch]
    dsimp only
    rw [Branch.visible]
    cases htext : n.kind.isText with
    | true =>
      obtain ⟨content, hcontent⟩ : ∃ content, n.kind.textContent? = some content := by
        cases hk : n.kind <;> simp_all [Kind.isText, Kind.textContent?]
      simp [hcontent]
    | false =>
      rw [if_neg Bool.false_ne_true, if_neg Bool.false_ne_true, listVisible_eq,
        List.filterMap_cons_none (by exact Kind.textContent?_of_not_text htext),
        List.filterMap_flatMap, join_flatMap, List.map_filterMap]
      -- Every child has a branch.
      congr 1
      rw [← List.filterMap_eq_map]
      refine List.filterMap_congr fun c hc => ?_
      have hcz : t.Under c z := h.mem_children_iff.mp (children_eq hn ▸ hc)
      obtain ⟨m, hm, -⟩ := hcz.exists_node
      obtain ⟨b, hb, -⟩ := h.exists_branch hm
      simp [textContent, visibleNodes, hb]

end Tree

end ContentTree
