import ContentTree.Proofs.Draft.Versions
import ContentTree.Proofs.Merge.Synced
import ContentTree.Proofs.Session.Reach

/-!
# Synced nodes in transactions

A transaction that consists of a single operation leaves the children of synced nodes as they are,
where the policy refuses changes below them. An empty fragment that replaces a child is the way
around the policy. A merge never adds to the children of a synced node, and takes none away under
the same policy; where changes are allowed, a synced node can lose a child to another parent.

## Main results

* `Session.children_of_synced`: the children of a synced node before and after an operation.
* `Session.replace_below_synced`: a synced node that loses its only child.
* `Session.merge_synced`: the same of merges.
-/

namespace ContentTree

namespace Session

variable {α : Type} {editor : Editor} {edit : Edit α} {t : Tree} {z : NodeId} {n : Node}

/-- What holds of the children of a node before a transaction, and of those at its end, holds of
those that are kept. -/
theorem children_run {P : List NodeId → Prop} (ht : t.Sound) (hedit : edit.Composed)
    (hbefore : P (t.children z))
    (hafter : P ((edit.run editor (Draft.start t)).2.tree.children z)) (store : Store) :
    P ((run editor edit ⟨t, store⟩).2.tree.children z) := by
  cases hopen : store.staged with
  | some staged => simpa [run, Store.begin, hopen] using hbefore
  | none =>
    have hend := ending_run editor store hedit ht hopen
    generalize (run editor edit ⟨t, store⟩).1 = result at hend
    generalize (run editor edit ⟨t, store⟩).2 = s at hend ⊢
    cases hend with
    | refused _ => exact hbefore
    | notPersisted _ _ _ _ => exact hbefore
    | notCommitted _ _ _ _ => exact hbefore
    | committed _ _ _ _ _ _ =>
      have hchanges := hedit.changes editor (Draft.start t) ht
      rwa [← Draft.children_bumpPages (hchanges.sound ht).keyed z] at hafter

/-! ### Single operations -/

/-- Where the policy refuses changes below synced nodes, a single operation leaves the children of
every synced node as they are, whoever edits and however the transaction ends. -/
theorem children_of_synced {counts : Tree.Loads} (ht : t.Reachable counts)
    (hedit : edit.Guarded t) (he : editor.syncedParents = .reject) (hn : t.node? z = some n)
    (hz : t.isSynced z = true) (store : Store) :
    (run editor edit ⟨t, store⟩).2.tree.children z = t.children z := by
  have hkeeps : Edit.Leads (Draft.KeepsChildren z) editor (Draft.start t) edit :=
    Edit.Guarded.keepsChildren hedit he ⟨ht.sound, ⟨n, hn⟩, hz⟩
  exact children_run (P := (· = t.children z)) ht.sound hedit.composed rfl hkeeps store

/-- A page with two boxes, one of them with something in it. -/
def twoBoxes : Snapshot :=
  .mk (some 1) { kind := .page "home" 0 false } none
    [.mk (some 2) { kind := .element "p" ∅ } none [.mk (some 3) { kind := .element "b" ∅ } none []],
      .mk (some 4) { kind := .element "q" ∅ } none []]

/-- The filled box is shared, and there is an empty fragment besides. -/
def sharedBox : Tree :=
  (run ⟨.anonymous, .unrestricted, .reject⟩ (Edit.share 2)
    ⟨((({} : Tree).load twoBoxes).2.load (.mk (some 5) { kind := .fragment } none [])).2,
      {}⟩).2.tree

theorem reachable_sharedBox : sharedBox.Reachable .successful := by
  have hboxes : (({} : Tree).load twoBoxes).2.Reachable .successful :=
    .load .empty twoBoxes ⟨1, by decide⟩
  exact .run (.load hboxes _ ⟨5, by decide⟩) _ (.share 2) {}

/-- The other box goes to the trash. -/
theorem children_of_synced_sharedBox :
    (run ⟨.anonymous, .unrestricted, .reject⟩ (Edit.trash 4) ⟨sharedBox, {}⟩).1 = .ok () ∧
    sharedBox.children 2 = [3] ∧
    (run ⟨.anonymous, .unrestricted, .reject⟩ (Edit.trash 4) ⟨sharedBox, {}⟩).2.tree.children 2 =
      sharedBox.children 2 := by
  obtain ⟨n, hn⟩ : ∃ n, sharedBox.node? 2 = some n :=
    Option.isSome_iff_exists.mp (by decide)
  exact ⟨by decide, by decide,
    children_of_synced reachable_sharedBox (.trash 4) rfl hn (by decide) {}⟩

/-- An empty fragment that takes the place of a child is not kept from doing so: the synced box
loses what is in it, although taking it out is refused. -/
theorem replace_below_synced :
    sharedBox.Reachable .successful ∧ sharedBox.isSynced 2 = true ∧ sharedBox.children 2 = [3] ∧
    (run ⟨.anonymous, .unrestricted, .reject⟩ (Edit.remove 2 3) ⟨sharedBox, {}⟩).1 =
      .error (.tree (.denied 2 .synced)) ∧
    (run ⟨.anonymous, .unrestricted, .reject⟩ (Edit.replace 2 5 3) ⟨sharedBox, {}⟩).1 = .ok 3 ∧
    (run ⟨.anonymous, .unrestricted, .reject⟩ (Edit.replace 2 5 3) ⟨sharedBox, {}⟩).2.tree.children
      2 = [] :=
  ⟨reachable_sharedBox, by decide, by decide, by decide, by decide, by decide⟩

/-! ### Merges -/

/-- A merge neither adds children to a synced node nor changes their order. Where the policy refuses
changes below synced nodes, it takes none away either. -/
theorem merge_synced (ht : t.Sound) (hn : t.node? z = some n) (hz : t.isSynced z = true)
    (settings : Merge.Settings) (root : NodeId) (target : Tree) (targetRoot : NodeId)
    (store : Store) :
    ((merge editor settings root target targetRoot ⟨t, store⟩).2.tree.children z).Sublist
      (t.children z) ∧
    (editor.syncedParents = .reject →
      (merge editor settings root target targetRoot ⟨t, store⟩).2.tree.children z =
        t.children z) := by
  unfold merge
  split
  · exact ⟨.refl _, fun _ => rfl⟩
  · next p _ =>
    have hspares : Edit.Leads (Draft.Spares editor z) editor (Draft.start t)
        (Merge.Apply.plan settings p) := Merge.Apply.spares_plan ⟨ht, ⟨n, hn⟩, hz⟩ p
    have hrun := children_run (z := z) (P := fun cs => cs.Sublist (t.children z) ∧
      (editor.syncedParents = .reject → cs = t.children z)) ht
      (Merge.Apply.composed_plan settings p) ⟨.refl _, fun _ => rfl⟩
      ⟨hspares.sublist, hspares.children_eq⟩ store
    generalize run editor (Merge.Apply.plan settings p) ⟨t, store⟩ = r at hrun ⊢
    obtain ⟨_ | _, s⟩ := r <;> exact hrun

/-- The shared box as it is to be: with nothing in it. -/
def emptyBox : Snapshot :=
  .mk (some 1) { kind := .element "p" ∅ } none []

/-- A merge that is to empty the shared box leaves out the deletion, and the box keeps what is in
it. -/
theorem merge_synced_sharedBox :
    sharedBox.children 2 = [3] ∧
    ((merge ⟨.anonymous, .unrestricted, .reject⟩ {} 2 (({} : Tree).load emptyBox).2 1
      ⟨sharedBox, {}⟩).1.toOption.map Merge.Report.entries =
        some [(.delete 3, .skipped .syncedParent)]) ∧
    (merge ⟨.anonymous, .unrestricted, .reject⟩ {} 2 (({} : Tree).load emptyBox).2 1
      ⟨sharedBox, {}⟩).2.tree.children 2 = sharedBox.children 2 := by
  obtain ⟨n, hn⟩ : ∃ n, sharedBox.node? 2 = some n :=
    Option.isSome_iff_exists.mp (by decide)
  exact ⟨by decide, by decide +kernel,
    (merge_synced reachable_sharedBox.sound hn (by decide) {} 2 _ 1 {}).2 rfl⟩

end Session

end ContentTree
