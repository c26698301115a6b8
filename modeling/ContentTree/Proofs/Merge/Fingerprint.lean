import ContentTree.Merge.Target
import ContentTree.Proofs.Merge.Target

/-!
# Fingerprints decide nothing alone

Branches that are alike have the same fingerprint, but not the other way round: fingerprints are
checksums, and different branches may share one. A search for a branch therefore goes by fingerprint
first and compares afterwards, and what it finds does not depend on how fingerprints are made.

## Main definitions

* `Target.Matches`: a target has the fingerprint of a branch and is like it.

## Main results

* `Fingerprint.ofBranch_eq_of_alike`: branches that are alike have the same fingerprint.
* `Fingerprint.getElem?_foldr_addNode`: one pass over the nodes of a branch, from the last to the
  first, finds the fingerprint of the branch of each of them.
* `Target.matches_children`: below its root, the target of a branch matches whatever is like it.
-/

namespace ContentTree

variable {t : Tree} {b b' c : Branch} {x : NodeId} {known : Std.ExtTreeMap NodeId UInt32}

namespace Fingerprint

/-! ### Fingerprints of branches -/

theorem ofBranches_eq (cs : List Branch) : ofBranch.ofBranches cs = cs.map ofBranch := by
  induction cs with
  | nil => rfl
  | cons c cs ih => rw [ofBranch.ofBranches, List.map_cons, ih]

theorem ofBranch_mk (n : Node) (cs : List Branch) :
    ofBranch ⟨n, cs⟩ = combine n.toContent.fingerprint (cs.map ofBranch) := by
  rw [ofBranch, ofBranches_eq]

theorem fingerprint_eq_of_comparable {c c' : Content} (h : c.comparable = c'.comparable) :
    c.fingerprint = c'.fingerprint := by
  simp only [Content.fingerprint, Content.comparableText, h]

/-- Branches that are alike have the same fingerprint. -/
theorem ofBranch_eq_of_alike (h : b.Alike b') : ofBranch b = ofBranch b' := by
  induction b generalizing b' with
  | mk n cs ih =>
    obtain ⟨m, ds⟩ := b'
    obtain ⟨hcontent, hall⟩ := Branch.alike_mk.mp h
    have hmap : cs.map ofBranch = ds.map ofBranch := by
      clear h
      induction hall with
      | nil => rfl
      | cons hcd _ ihall =>
        rw [List.map_cons, List.map_cons, ih _ List.mem_cons_self hcd,
          ihall fun c hc => ih c (List.mem_cons_of_mem _ hc)]
    rw [ofBranch_mk, ofBranch_mk, fingerprint_eq_of_comparable hcontent, hmap]

/-! ### Fingerprints in one pass -/

theorem getElem?_addNode (n : Node) : (addNode n known)[x]? =
    if n.id = x then some (combine n.toContent.fingerprint (n.children.filterMap (known[·]?)))
    else known[x]? := by
  rw [addNode, Std.ExtTreeMap.getElem?_insert]
  simp only [Std.compare_eq_iff_eq]

theorem foldr_addNode_mk (n : Node) (cs : List Branch) :
    (Branch.nodes ⟨n, cs⟩).foldr addNode known =
      addNode n (cs.foldr (fun c known => c.nodes.foldr addNode known) known) := by
  have hlist : (Branch.allNodes cs).foldr addNode known =
      cs.foldr (fun c known => c.nodes.foldr addNode known) known := by
    induction cs with
    | nil => rfl
    | cons c cs ih =>
      rw [show Branch.allNodes (c :: cs) = c.nodes ++ Branch.allNodes cs from rfl,
        List.foldr_append, ih, List.foldr_cons]
  rw [Branch.nodes_mk, List.foldr_cons, hlist]

/-- One pass over the nodes of a branch finds the fingerprint of the branch of each of them, and
leaves alone what was known of others. -/
theorem getElem?_foldr_addNode (ht : t.WellFormed) (hb : b.Shows t) :
    ∀ known : Std.ExtTreeMap NodeId UInt32, (b.nodes.foldr addNode known)[x]? =
      if x ∈ b.ids then (t.branch? x).map ofBranch else known[x]? := by
  induction b generalizing x with
  | mk n cs ih =>
    have hshows : ∀ c ∈ cs, c.Shows t := fun c => hb.of_mem_children
    -- The nodes below the root come later in document order, so the pass is through with them
    -- when it arrives at the root.
    have hlist : ∀ (x : NodeId) (known : Std.ExtTreeMap NodeId UInt32),
        (cs.foldr (fun c known => c.nodes.foldr addNode known) known)[x]? =
          if x ∈ cs.flatMap Branch.ids then (t.branch? x).map ofBranch else known[x]? := by
      intro x known
      clear hb
      induction cs with
      | nil => rfl
      | cons c cs ihcs =>
        rw [List.foldr_cons, ih c List.mem_cons_self (hshows c List.mem_cons_self),
          ihcs (fun c hc => ih c (List.mem_cons_of_mem _ hc))
            fun c hc => hshows c (List.mem_cons_of_mem _ hc), List.flatMap_cons]
        simp only [List.mem_append]
        split <;> simp_all
    intro known
    have hroot : t.branch? n.id = some ⟨n, cs⟩ := ht.branch?_eq_some_iff.mpr ⟨rfl, hb⟩
    have hknown : n.children.filterMap
        ((cs.foldr (fun c known => c.nodes.foldr addNode known) known)[·]?) = cs.map ofBranch := by
      rw [show n.children = cs.map Branch.id from (Branch.shows_mk.mp hb).2.1, List.filterMap_map,
        ← List.filterMap_eq_map]
      refine List.filterMap_congr fun c hc => ?_
      have hchild : t.branch? c.id = some c := ht.branch?_eq_some_iff.mpr ⟨rfl, hshows c hc⟩
      rw [Function.comp_apply, hlist, if_pos (List.mem_flatMap.mpr ⟨c, hc, c.id_mem_ids⟩), hchild]
      rfl
    rw [foldr_addNode_mk, getElem?_addNode, hknown, hlist, Branch.ids_mk]
    by_cases hx : n.id = x
    · subst hx
      simp [hroot, ofBranch_mk]
    · simp [hx, Ne.symm hx]

theorem getD_ofNodes (ht : t.WellFormed) (hb : b.Shows t) (hc : c.Shows t) (hmem : c.id ∈ b.ids) :
    (ofNodes b.nodes).getD c.id 0 = ofBranch c := by
  rw [Std.ExtTreeMap.getD_eq_getD_getElem?, ofNodes, getElem?_foldr_addNode ht hb, if_pos hmem,
    ht.branch?_eq_some_iff.mpr ⟨rfl, hc⟩]
  rfl

end Fingerprint

/-! ### Labels are fingerprints -/

namespace Merge

namespace Labelled

theorem ofBranches_eq (cs : List Branch) : ofBranch.ofBranches cs = cs.map ofBranch := by
  induction cs with
  | nil => rfl
  | cons c cs ih => rw [ofBranch.ofBranches, List.map_cons, ih]

theorem label_ofBranch (b : Branch) : (ofBranch b).label = Fingerprint.ofBranch b := by
  induction b with
  | mk n cs ih =>
    rw [ofBranch, label, ofBranches_eq, List.map_map, Fingerprint.ofBranch_mk]
    congr 1
    exact List.map_congr_left ih

theorem comparable_content {α : Type} {w : Labelled α} (h : w.equals b = true) :
    w.content.comparable = b.content.comparable := by
  obtain ⟨l, c, ts⟩ := w
  obtain ⟨n, cs⟩ := b
  exact (equals_mk.mp h).1

theorem equals_of_alike {α : Type} {w : Labelled α} (h : w.equals b = true) (halike : b.Alike c) :
    w.equals c = true := by
  induction w generalizing b c with
  | mk l content ts ih =>
    obtain ⟨n, cs⟩ := b
    obtain ⟨m, ds⟩ := c
    obtain ⟨hcontent, hall⟩ := equals_mk.mp h
    obtain ⟨hcontent', hall'⟩ := Branch.alike_mk.mp halike
    refine equals_mk.mpr ⟨hcontent.trans hcontent', ?_⟩
    clear h halike hcontent hcontent'
    induction hall generalizing ds with
    | nil =>
      cases hall'
      exact .nil
    | cons htc _ ihall =>
      cases hall' with
      | cons hcd hall' =>
        exact .cons (ih _ List.mem_cons_self htc hcd)
          (ihall (fun w hw => ih w (List.mem_cons_of_mem _ hw)) _ hall')

end Labelled

namespace Target

/-- A target has the fingerprint of a branch and is like it: what the search for a branch that
exists as a whole goes by. -/
structure Matches (w : Target) (b : Branch) : Prop where
  fingerprint : w.label.fingerprint = Fingerprint.ofBranch b
  equals : w.equals b = true

theorem Matches.of_alike {w : Target} (h : w.Matches b) (halike : b.Alike c) : w.Matches c where
  fingerprint := h.fingerprint.trans (Fingerprint.ofBranch_eq_of_alike halike)
  equals := Labelled.equals_of_alike h.equals halike

theorem fingerprint_number (w : Labelled UInt32) (o : Occurrences) :
    (number w o).1.label.fingerprint = w.label := by
  cases w
  rfl

theorem matches_number (b : Branch) (o : Occurrences) :
    (number (Labelled.ofBranch b) o).1.Matches b where
  fingerprint := (fingerprint_number _ o).trans (Labelled.label_ofBranch b)
  equals := (numbers_number _ o).2 b (Labelled.equals_ofBranch b)

theorem matches_numberAll {bs cs : List Branch} (hall : List.Forall₂ Branch.Alike bs cs) : ∀ o,
    List.Forall₂ Matches (number.numberAll (bs.map Labelled.ofBranch) o).1 cs := by
  induction hall with
  | nil => exact fun _ => .nil
  | cons halike _ ih => exact fun o => .cons ((matches_number _ o).of_alike halike) (ih _)

/-- Below its root, the target of a branch matches whatever is like the branch. -/
theorem matches_children (h : b.Alike c) :
    List.Forall₂ Matches (ofBranch b).children c.children := by
  obtain ⟨n, bs⟩ := b
  obtain ⟨m, cs⟩ := c
  have hall := matches_numberAll (Branch.alike_mk.mp h).2
  rw [← Labelled.ofBranches_eq] at hall
  exact hall _

end Target

end Merge

end ContentTree
