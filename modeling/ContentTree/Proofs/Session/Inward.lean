import ContentTree.Proofs.Merge.Inward
import ContentTree.Proofs.Session.Synced
import ContentTree.Proofs.Session.Versions

/-!
# What a merge leaves alone

A merge works on the branch of one node. Whatever the target is, the rest of the tree stays as it
is, nobody loses or gains a node, a grant or a component, and new nodes belong to the principal.

## Main results

* `Session.merge_changedBelow`: a merge changes a tree below its root only.
-/

namespace ContentTree.Session

variable {t : Tree} {editor : Editor} {root : NodeId} {target : Tree} {targetRoot : NodeId}

/-- A plan is made only for a node that is there, and names the nodes below it. -/
theorem exists_inward_of_plan {p : Merge.Plan} (ht : t.Sound)
    (h : Merge.plan t root target targetRoot = .ok p) :
    t.Bounds (t.BelowOrNew root) root ∧ ∃ key, p.Inward (t.BelowOrNew root) root key := by
  obtain ⟨b, hb, h⟩ := bind_eq_ok.mp h
  obtain ⟨w, hw, h⟩ := bind_eq_ok.mp h
  have hbranch : t.branch? root = some b := by
    unfold Merge.requireBranch at hb
    split at hb
    · next c hc => rw [hc, Except.ok.inj hb]
    · exact nomatch hb
  obtain ⟨rfl, hshow⟩ := ht.branch?_eq_some_iff.mp hbranch
  refine ⟨ht.bounds (hshow.node?_of_mem b.node_mem_nodes), (Merge.Target.ofBranch w).key, ?_⟩
  dsimp only at h
  split at h
  · rw [← Except.ok.inj h]
    exact Merge.Plan.inward_ofBranches ht.toWellFormed hshow w fun _ => .inl
  · exact nomatch h

/-- A merge changes a tree below its root only, whether it succeeds or not and whatever the target,
the principal and the policies are. Outside the branch of the root only versions of pages go up, and
the root keeps its place and its document. All nodes are there still, and each keeps its kind, its
owner, its grants and its component. No component is linked or unlinked, and new nodes belong to the
principal. -/
theorem merge_changedBelow (ht : t.Sound) (editor : Editor) (settings : Merge.Settings)
    (root : NodeId) (target : Tree) (targetRoot : NodeId) (store : Store) :
    t.ChangedBelow root editor.principal.name?
      (merge editor settings root target targetRoot ⟨t, store⟩).2.tree := by
  unfold merge
  split
  · exact .refl root _ t
  · next p hp =>
    obtain ⟨hb, key, hinward⟩ := exists_inward_of_plan ht hp
    have hcomposed := Merge.Apply.composed_plan settings p
    cases hrun : run editor (Merge.Apply.plan settings p) ⟨t, store⟩ with
    | mk result s =>
      cases result with
      | error err =>
        -- What fails is undone.
        change t.ChangedBelow root _ s.tree
        rw [tree_eq_of_error ht hcomposed hrun]
        exact .refl root _ t
      | ok report =>
        obtain ⟨d, hedited, -, htree⟩ := exists_run_of_run_eq_ok hcomposed ht hrun
        have hchanged : Draft.Inward (t.BelowOrNew root) root editor.principal.name?
            (Draft.start t)
            ((Merge.Apply.plan settings p).run editor (Draft.start t)).2 :=
          Merge.Apply.inward_plan hb hinward
        rw [hedited] at hchanged
        change t.ChangedBelow root _ s.tree
        rw [htree]
        exact hchanged.changedBelow hb

/-- The other box as it is to be: it has a name and a text, and is said to belong to someone
else. -/
def namedBox : Tree :=
  (({} : Tree).load (.mk (some 1)
    { kind := .element "q" ∅, properties := { name := some "aside", owner := some "eve" } } none
    [.mk (some 2) { kind := .text "a" none } none []])).2

/-- A user who may write everything. -/
def author : Editor := ⟨.user "ada" false, .unrestricted, .reject⟩

set_option maxRecDepth 20000 in
/-- The other box gets its text, which belongs to the user. The page, the shared box and its copy,
and the fragment are left alone. -/
theorem merge_changedBelow_sharedBox :
    (merge author {} 4 namedBox 1 ⟨sharedBox, {}⟩).1.isOk = true ∧
    (merge author {} 4 namedBox 1 ⟨sharedBox, {}⟩).2.tree.children 4 = [9] ∧
    sharedBox.ChangedBelow 4 (some "ada")
      (merge author {} 4 namedBox 1 ⟨sharedBox, {}⟩).2.tree := by
  have hchanged := merge_changedBelow reachable_sharedBox.sound author {} 4 namedBox 1 {}
  obtain ⟨b, hb⟩ : ∃ b, (sharedBox.branch? 4).get (by decide) = b := ⟨_, rfl⟩
  obtain ⟨w, hw⟩ : ∃ w, (namedBox.branch? 1).get (by decide) = w := ⟨_, rfl⟩
  have hplan : Merge.plan sharedBox 4 namedBox 1 = .ok (Merge.Plan.ofBranches b w) := by
    subst hb hw
    rfl
  -- The operations are in order already, so that nothing has to be sorted.
  have hsort : Merge.Operation.sort (Merge.Plan.ofBranches b w).operations =
      (Merge.Plan.ofBranches b w).operations := Merge.Plan.sort_operations b _ _
  have hmerged : (merge author {} 4 namedBox 1 ⟨sharedBox, {}⟩).1.isOk = true ∧
      (merge author {} 4 namedBox 1 ⟨sharedBox, {}⟩).2.tree.children 4 = [9] := by
    simp only [merge, hplan, Merge.Apply.plan, hsort]
    subst hb hw
    decide +kernel
  exact ⟨hmerged.1, hmerged.2, hchanged⟩

end ContentTree.Session
