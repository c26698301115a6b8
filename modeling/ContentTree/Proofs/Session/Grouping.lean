import ContentTree.Proofs.Edit.Script
import ContentTree.Proofs.Session.Reach

/-!
# Grouping calls into transactions

Calls of operations may each be a transaction of their own, or be grouped into transactions that may
contain further ones. However they are grouped, they return the same and leave the same tree but for
the versions of pages, which count transactions.

Whatever the grouping, the calls do what one edit does that makes all of them one after the other.
The end of a transaction has no part in this, since it changes nothing but versions and no operation
looks at a version.

## Main definitions

* `Session.runAll`: runs scripts one after the other.

## Main results

* `Session.exists_mapM_of_runAll`, `Session.exists_runAll_of_mapM`: scripts and the edit that makes
  their calls.
* `Session.regrouping`, `Session.grouping`: another grouping of the same calls.
-/

namespace ContentTree

namespace Session

open Edit (Answer Call Script)

variable {e : Editor} {t t' : Tree} {store store' : Store} {s s' s'' : Session} {α : Type}
  {edit : Edit α} {a : α} {answers : List Answer} {script : Script} {scripts : List Script}

/-! ### Transactions that succeed -/

/-- The tree after a transaction that has succeeded is sound. -/
theorem sound_of_run_eq_ok (ht : t.Sound) (hedit : edit.Composed)
    (hrun : run e edit ⟨t, store⟩ = (.ok a, s)) : s.tree.Sound := by
  obtain ⟨d, -, hsound, htree⟩ := exists_run_of_run_eq_ok hedit ht hrun
  rw [htree]
  exact Draft.sound_bumpPages hsound

/-- A store that takes everything goes on doing so after a transaction. -/
theorem accepting_of_run_eq_ok (ht : t.Sound) (hedit : edit.Composed) (hstore : store.Accepting)
    (hrun : run e edit ⟨t, store⟩ = (.ok a, s)) : s.store.Accepting := by
  have hend := ending_run e store hedit ht hstore.closed
  rw [hrun] at hend
  cases hend with
  | committed _ hrefuse _ _ _ hplain => exact ⟨rfl, hplain hstore.persists, hrefuse⟩

/-! ### Scripts -/

/-- Runs scripts one after the other, up to the first failure. What is not part of a transaction is
a transaction of its own. -/
def runAll (e : Editor) : List Script → Session →
    Except TransactionError (List Answer) × Session
  | [], s => (.ok [], s)
  | script :: rest, s =>
    match run e script.edit s with
    | (.error err, s) => (.error err, s)
    | (.ok first, s) =>
      match runAll e rest s with
      | (.error err, s) => (.error err, s)
      | (.ok others, s) => (.ok (first ++ others), s)

theorem runAll_cons_eq_ok : runAll e (script :: scripts) s = (.ok answers, s'') ↔
    ∃ first s' others, run e script.edit s = (.ok first, s') ∧
      runAll e scripts s' = (.ok others, s'') ∧ answers = first ++ others := by
  rw [runAll]
  rcases run e script.edit s with ⟨_ | first, s'⟩
  · simp
  · dsimp only
    rcases hrest : runAll e scripts s' with ⟨_ | others, s₂⟩ <;>
      simp [hrest, eq_comm, and_comm]

/-- What scripts have done is what their calls do on any draft of the tree, but for versions. -/
theorem exists_mapM_of_runAll (he : e.access.IgnoresVersions) :
    ∀ {t : Tree} {store : Store} {answers : List Answer} {d : Draft}, t.Sound →
      t.unversioned = d.tree.unversioned → runAll e scripts ⟨t, store⟩ = (.ok answers, s) →
      ∃ d', ((scripts.flatMap Script.calls).mapM Call.edit).run e d = (.ok answers, d') ∧
        s.tree.unversioned = d'.tree.unversioned := by
  induction scripts with
  | nil =>
    rintro t store _ d - htree ⟨⟩
    exact ⟨d, rfl, htree⟩
  | cons script scripts ih =>
    intro t store answers d ht htree hrun
    obtain ⟨first, s₁, others, hfirst, hothers, rfl⟩ := runAll_cons_eq_ok.mp hrun
    obtain ⟨d₁, hd₁, hsound, hs₁⟩ := exists_run_of_run_eq_ok script.composed ht hfirst
    rw [Script.edit_eq] at hd₁
    obtain ⟨_, d₂, hd₂, rfl, htree₂⟩ :=
      Call.ignoresVersions_mapM he script.calls (Draft.start t) d htree first d₁ hd₁
    -- The end of the first transaction raises versions only: the draft is still like the tree.
    have hbumped : s₁.tree.unversioned = d₂.tree.unversioned := by
      rw [hs₁, Draft.unversioned_bumpPages hsound.keyed, htree₂]
    obtain ⟨d', hd', htree'⟩ := ih (sound_of_run_eq_ok ht script.composed hfirst) hbumped hothers
    refine ⟨d', ?_, htree'⟩
    rw [List.flatMap_cons, List.mapM_append]
    exact Edit.run_bind_eq_ok.mpr ⟨first, d₂, hd₂, Edit.run_bind_eq_ok.mpr ⟨others, d', hd', rfl⟩⟩

/-- What calls do on a draft of the tree is what scripts made of them do, but for versions. -/
theorem exists_runAll_of_mapM (he : e.access.IgnoresVersions) :
    ∀ {t : Tree} {store : Store} {answers : List Answer} {d d' : Draft}, t.Sound →
      store.Accepting → d.tree.unversioned = t.unversioned →
      ((scripts.flatMap Script.calls).mapM Call.edit).run e d = (.ok answers, d') →
      ∃ s, runAll e scripts ⟨t, store⟩ = (.ok answers, s) ∧
        d'.tree.unversioned = s.tree.unversioned := by
  induction scripts with
  | nil =>
    rintro t store _ d _ - - htree ⟨⟩
    exact ⟨⟨t, store⟩, rfl, htree⟩
  | cons script scripts ih =>
    intro t store answers d d' ht hstore htree hrun
    rw [List.flatMap_cons, List.mapM_append] at hrun
    obtain ⟨first, d₁, hd₁, hrest⟩ := Edit.run_bind_eq_ok.mp hrun
    obtain ⟨others, d₂, hd₂, ⟨⟩⟩ := Edit.run_bind_eq_ok.mp hrest
    -- What the first script does on the draft it also does at the beginning of its transaction.
    obtain ⟨_, d₃, hd₃, rfl, htree₃⟩ :=
      Call.ignoresVersions_mapM he script.calls d (Draft.start t) htree first d₁ hd₁
    rw [← Script.edit_eq] at hd₃
    obtain ⟨store', hfirst⟩ :=
      run_ok script.composed ht hstore.closed hstore.persists hstore.commits hd₃
    have hsound := (script.composed.changes e (Draft.start t) ht).sound ht
    rw [hd₃] at hsound
    have hbumped : d₁.tree.unversioned = d₃.bumpPages.tree.unversioned := by
      rw [Draft.unversioned_bumpPages hsound.keyed, htree₃]
    obtain ⟨s, hothers, hs⟩ := ih (Draft.sound_bumpPages hsound)
      (accepting_of_run_eq_ok ht script.composed hstore hfirst) hbumped hd₂
    exact ⟨s, runAll_cons_eq_ok.mpr ⟨first, _, others, hfirst, hothers, rfl⟩, hs⟩

/-! ### Groupings -/

/-- Two groupings of the same calls return the same and leave the same but for versions. -/
theorem regrouping {scripts' : List Script} (he : e.access.IgnoresVersions) (ht : t.Sound)
    (hstore : store'.Accepting)
    (hcalls : scripts.flatMap Script.calls = scripts'.flatMap Script.calls)
    (hrun : runAll e scripts ⟨t, store⟩ = (.ok answers, s)) :
    ∃ s', runAll e scripts' ⟨t, store'⟩ = (.ok answers, s') ∧
      s.tree.unversioned = s'.tree.unversioned := by
  obtain ⟨d, hd, htree⟩ := exists_mapM_of_runAll he (d := Draft.start t) ht rfl hrun
  rw [hcalls] at hd
  obtain ⟨s', hs', htree'⟩ := exists_runAll_of_mapM he ht hstore rfl hd
  exact ⟨s', hs', htree.trans htree'⟩

/-- Calls that all succeed one after the other, each as a transaction of its own, also succeed when
they are grouped into transactions in any way. They return the same, and the trees are equal in all
nodes, identifiers, shared components and the shadow page, but for the versions of pages. -/
theorem grouping {counts : Tree.Loads} {calls : List Call} (ht : t.Reachable counts)
    (he : e.access = .unrestricted ∨ e.access = .byGrants) (hstore : store.Accepting)
    (hcalls : scripts.flatMap Script.calls = calls)
    (hrun : runAll e (calls.map .call) ⟨t, store⟩ = (.ok answers, s)) :
    ∃ s', runAll e scripts ⟨t, store⟩ = (.ok answers, s') ∧
      s.tree.unversioned = s'.tree.unversioned := by
  have hignores : e.access.IgnoresVersions := by
    rcases he with he | he <;> rw [he]
    · exact Access.ignoresVersions_unrestricted
    · exact Access.ignoresVersions_byGrants
  refine regrouping hignores ht.sound hstore ?_ hrun
  rw [hcalls, List.flatMap_map]
  exact List.flatMap_singleton' calls

/-- A text is added to a page and takes its place there. -/
def thirdText : List Call :=
  [.create (some 1) { kind := .text "third" none }, .append 1 4]

/-- The same in a transaction with another one in it. -/
def thirdTextAtOnce : List Script :=
  [.transaction [.call (.create (some 1) { kind := .text "third" none }),
    .transaction [.call (.append 1 4)]]]

/-- In one transaction, the page gets another version than in two. -/
theorem grouping_twoTexts :
    ∃ s s', runAll ⟨.user "ann" false, .unrestricted, .reject⟩ (thirdText.map .call)
        ⟨(({} : Tree).load Tree.twoTexts).2, {}⟩ = (.ok [.node 4, .node 4], s) ∧
      runAll ⟨.user "ann" false, .unrestricted, .reject⟩ thirdTextAtOnce
        ⟨(({} : Tree).load Tree.twoTexts).2, {}⟩ = (.ok [.node 4, .node 4], s') ∧
      s.tree.unversioned = s'.tree.unversioned ∧ s.tree ≠ s'.tree := by
  have hcalls : thirdTextAtOnce.flatMap Script.calls = thirdText := rfl
  have hok : (runAll ⟨.user "ann" false, .unrestricted, .reject⟩ (thirdText.map .call)
      ⟨(({} : Tree).load Tree.twoTexts).2, {}⟩).1 = .ok [.node 4, .node 4] := by decide
  have htwo : ((runAll ⟨.user "ann" false, .unrestricted, .reject⟩ (thirdText.map .call)
      ⟨(({} : Tree).load Tree.twoTexts).2, {}⟩).2.tree.node? 1).bind (·.kind.version?) =
      some 2 := by
    decide
  have hone : ((runAll ⟨.user "ann" false, .unrestricted, .reject⟩ thirdTextAtOnce
      ⟨(({} : Tree).load Tree.twoTexts).2, {}⟩).2.tree.node? 1).bind (·.kind.version?) =
      some 1 := by
    decide
  obtain ⟨s', hs', htree⟩ := grouping Tree.reachable_twoTexts (.inl rfl) ⟨rfl, rfl, rfl⟩ hcalls
    (Prod.ext hok rfl)
  refine ⟨_, s', Prod.ext hok rfl, hs', htree, fun heq => ?_⟩
  have hversion := congrArg (fun t : Tree => (t.node? 1).bind (·.kind.version?)) heq
  rw [hs'] at hone
  exact absurd (htwo.symm.trans (hversion.trans hone)) (by decide)

end Session

end ContentTree
