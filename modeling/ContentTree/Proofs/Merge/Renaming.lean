import ContentTree.Proofs.Merge.Agreement
import ContentTree.Proofs.Tree.Renaming

/-!
# Plans hold no identifiers of the target

A plan names the nodes of the target by their keys. Keys are made of fingerprints and of numbers
given out in document order, so that a target whose nodes have other identifiers has the same keys,
is paired in the same way, and is planned for by the same operations.

## Main definitions

* `Target.keys`: the nodes of a branch with the keys that the target of the branch gives them.

## Main results

* `Target.ofBranch_map`: the target of a branch depends on contents only.
* `plan_renamed`: targets with other identifiers are planned for alike, and different nodes of a
  target have different keys.
-/

namespace ContentTree.Merge

variable {α : Type} {g : Node → Node} {b w : Branch}

namespace Labelled

theorem ofBranch_map (hg : ∀ n, (g n).toContent = n.toContent) (b : Branch) :
    ofBranch (b.map g) = ofBranch b := by
  induction b with
  | mk n cs ih =>
    have hall : (cs.map (Branch.map g)).map ofBranch = cs.map ofBranch := by
      rw [List.map_map]
      exact List.map_congr_left ih
    rw [Branch.map_mk, ofBranch, ofBranch, ofBranches_eq, ofBranches_eq, hall, hg]

/-- A target that is like a branch has a label for every node of it. -/
theorem length_labels_of_equals {t : Labelled α} (h : t.equals b = true) :
    t.labels.length = b.ids.length := by
  induction t generalizing b with
  | mk l c ts ih =>
    obtain ⟨n, cs⟩ := b
    have hchildren := (equals_mk.mp h).2
    clear h
    have hall : (allLabels ts).length = (cs.flatMap Branch.ids).length := by
      induction hchildren with
      | nil => rfl
      | @cons t b ts bs htb _ ihts =>
        rw [show allLabels (t :: ts) = t.labels ++ allLabels ts from rfl, List.flatMap_cons,
          List.length_append, List.length_append, ih t List.mem_cons_self htb,
          ihts fun t ht => ih t (List.mem_cons_of_mem _ ht)]
    rw [Branch.ids_mk, List.length_cons, ← hall]
    rfl

end Labelled

namespace Target

/-- The target of a branch depends on contents only. -/
theorem ofBranch_map (hg : ∀ n, (g n).toContent = n.toContent) (b : Branch) :
    ofBranch (b.map g) = ofBranch b := by
  rw [ofBranch, Labelled.ofBranch_map hg, ofBranch]

/-- The nodes of a branch in document order, with the keys that its target gives them. -/
def keys (b : Branch) : List (NodeId × BranchKey) :=
  b.ids.zip ((ofBranch b).labels.map Label.key)

theorem length_keys (b : Branch) : ((ofBranch b).labels.map Label.key).length = b.ids.length := by
  rw [List.length_map, Labelled.length_labels_of_equals (equals_ofBranch b)]

theorem map_fst_keys (b : Branch) : (keys b).map Prod.fst = b.ids :=
  List.map_fst_zip (length_keys b).ge

theorem nodup_keys (b : Branch) : ((keys b).map Prod.snd).Nodup := by
  rw [keys, List.map_snd_zip (length_keys b).le]
  exact (nodup_labels b).map Label.key_injective

theorem keys_renamed (f : NodeId → NodeId) (b : Branch) :
    keys (b.map (Node.renamed f)) = (keys b).map (Prod.map f id) := by
  rw [keys, keys, ofBranch_map (g := Node.renamed f) (fun _ => rfl), Branch.ids_map (fun _ => rfl),
    List.zip_map_left]

end Target

/-- Plans do not depend on the identifiers of the target. For any existing tree there is the same
plan, or none, if the nodes of the target have other identifiers: the same operations in the same
order, and the same existing nodes under the same keys. Every node of the target has a key, which is
the same under the other identifiers, and different nodes have different keys. -/
theorem plan_renamed {f : NodeId → NodeId} {u u' : Tree} {targetRoot : NodeId} {m : Node}
    (hu : u.WellFormed) (hroot : u.node? targetRoot = some m) (hrenamed : u.Renamed f u') :
    (∀ t root p, plan t root u' (f targetRoot) = .ok p ↔ plan t root u targetRoot = .ok p) ∧
    ∃ w w', u.branch? targetRoot = some w ∧ u'.branch? (f targetRoot) = some w' ∧
      (Target.keys w).map Prod.fst = w.ids ∧ ((Target.keys w).map Prod.snd).Nodup ∧
      Target.keys w' = (Target.keys w).map (Prod.map f id) := by
  obtain ⟨w, hw, -⟩ := hu.exists_branch hroot
  have hw' := hrenamed.branch?_eq hu (Tree.mem_ids.mpr ⟨m, hroot⟩)
  rw [hw, Option.map_some] at hw'
  refine ⟨fun t root p => ?_, w, _, hw, hw', Target.map_fst_keys w, Target.nodup_keys w,
    Target.keys_renamed f w⟩
  have hkind : (w.map (Node.renamed f)).node.kind = w.node.kind := by
    cases w
    rfl
  have htarget : Target.ofBranch (w.map (Node.renamed f)) = Target.ofBranch w :=
    Target.ofBranch_map (g := Node.renamed f) (fun _ => rfl) w
  simp only [plan, requireBranch, hw, hw', hkind, Plan.ofBranches, htarget, bind, Except.bind]
  cases t.branch? root with
  | none => exact Iff.rfl
  | some e =>
    -- Only where the roots are of different kinds is the root of the target named.
    dsimp only
    split
    · exact Iff.rfl
    · simp only [reduceCtorEq]

theorem exists_plan_of_same {t u : Tree} {root targetRoot : NodeId} {n m : Node} (ht : t.WellFormed)
    (hu : u.WellFormed) (hroot : t.node? root = some n) (htarget : u.node? targetRoot = some m)
    (hkind : n.kind.same m.kind = true) : ∃ p, plan t root u targetRoot = .ok p := by
  obtain ⟨e, he, rfl, -⟩ := ht.exists_branch hroot
  obtain ⟨w, hw, rfl, -⟩ := hu.exists_branch htarget
  exact ⟨Plan.ofBranches e w, plan_eq_ok he hw hkind⟩

/-- The page with the same text twice, under other identifiers. -/
def renumberedTwins : Snapshot :=
  .mk (some 7) { kind := .page "home" 0 false } none
    [.mk (some 9) { kind := .text "first" none } none [],
      .mk (some 8) { kind := .text "first" none } none []]

/-- The two texts that are alike have different keys, and a plan for the one page is a plan for the
other. -/
theorem plan_renamed_renumberedTwins :
    ∃ p w w', plan (({} : Tree).load Tree.twoTexts).2 1 (({} : Tree).load twinTexts).2 1 = .ok p ∧
      plan (({} : Tree).load Tree.twoTexts).2 1 (({} : Tree).load renumberedTwins).2 7 = .ok p ∧
      (({} : Tree).load twinTexts).2.branch? 1 = some w ∧
      (({} : Tree).load renumberedTwins).2.branch? 7 = some w' ∧
      (Target.keys w').map Prod.fst = [7, 9, 8] ∧
      (Target.keys w').map Prod.snd = (Target.keys w).map Prod.snd ∧
      ((Target.keys w).map Prod.snd).Nodup := by
  have hreachable : (({} : Tree).load twinTexts).2.Reachable .successful :=
    .load .empty twinTexts ⟨1, by decide⟩
  have hrenamed : (({} : Tree).load twinTexts).2.Renamed ([0, 7, 9, 8].getD · 0)
      (({} : Tree).load renumberedTwins).2 :=
    ⟨by decide, by decide, by decide⟩
  obtain ⟨m, hroot⟩ : ∃ m, (({} : Tree).load twinTexts).2.node? 1 = some m := ⟨_, by rfl⟩
  obtain ⟨hplan, w, w', hw, hw', hnodes, hkeys, hsame⟩ :=
    plan_renamed hreachable.sound.toWellFormed hroot hrenamed
  obtain ⟨p, hp⟩ : ∃ p, plan (({} : Tree).load Tree.twoTexts).2 1 (({} : Tree).load twinTexts).2 1 =
      .ok p :=
    exists_plan_of_same Tree.reachable_twoTexts.sound.toWellFormed hreachable.sound.toWellFormed
      (by rfl) (by rfl) rfl
  have hids : w.ids = [1, 2, 3] := by
    have h := hw
    rw [show (({} : Tree).load twinTexts).2.branch? 1 = some _ from rfl, Option.some_inj] at h
    rw [← h]
    rfl
  refine ⟨p, w, w', hp, (hplan _ _ _).mpr hp, hw, hw', ?_, ?_, hkeys⟩
  · rw [hsame, List.map_map, Prod.map_fst', ← List.map_map, hnodes, hids]
    rfl
  · rw [hsame, List.map_map, Prod.map_snd']
    rfl

end ContentTree.Merge
