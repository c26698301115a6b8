import ContentTree.Proofs.Draft.Versions
import ContentTree.Proofs.Session.Sharing

/-!
# Versions in transactions

The version of a page says how many transactions have concerned it. However many operations a
transaction has, and whatever they do to the nodes of a page, its version goes up once in the end;
and it does go up when any node that counts for the page is new or differs. Operations themselves
leave versions alone, and so do transactions that fail.

## Main results

* `Session.advanced_run`: what a transaction does to versions, by its result.
* `Visible.versions`: the same of operations, transactions and merges on whatever can be seen.
-/

namespace ContentTree

namespace Session

variable {α : Type} {edit : Edit α} {editor : Editor} {t : Tree} {store : Store} {s : Session}

/-- A transaction that fails leaves the tree as it was. -/
theorem tree_eq_of_error (h : t.Sound) (hedit : edit.Composed) {err : TransactionError}
    (hrun : run editor edit ⟨t, store⟩ = (.error err, s)) : s.tree = t := by
  cases hopen : store.staged with
  | some staged =>
    -- The store refuses to begin a second transaction.
    simp only [run, Store.begin, hopen, Prod.mk.injEq] at hrun
    rw [← hrun.2]
  | none =>
    have hend := ending_run editor store hedit h hopen
    rw [hrun] at hend
    cases hend <;> rfl

/-- A transaction that succeeds raises the versions of the pages that it has concerned. -/
theorem advanced_run (h : t.Sound) (hedit : edit.Composed) {a : α}
    (hrun : run editor edit ⟨t, store⟩ = (.ok a, s)) : t.Advanced s.tree := by
  obtain ⟨d, hedited, -, htree⟩ := exists_run_of_run_eq_ok hedit h hrun
  have hchanges := hedit.changes editor (Draft.start t) h
  rw [hedited] at hchanges
  rw [htree]
  exact hchanges.advanced h

end Session

namespace Tree

variable {t : Tree} {counts : Loads}

/-- Operations leave the versions of pages as they are, whatever contents they are given. A
transaction that succeeds raises the version of a page by one or not at all, and it does raise it
where a node that is new or differs counts for the page; a transaction that fails leaves the tree
as it was. Merges do the same. -/
theorem Visible.versions (h : t.Visible counts) (editor : Editor) :
    (∀ {α : Type} {edit : Edit α}, edit.Composed →
      (∀ d : Draft, d.tree = t → ∀ page version, t.version? page = some version →
        (edit.run editor d).2.tree.version? page = some version) ∧
      ∀ store s,
        (∀ a, Session.run editor edit ⟨t, store⟩ = (.ok a, s) → t.Advanced s.tree) ∧
        ∀ err, Session.run editor edit ⟨t, store⟩ = (.error err, s) → s.tree = t) ∧
    ∀ settings root target targetRoot store s,
      (∀ report, Session.merge editor settings root target targetRoot ⟨t, store⟩ =
        (.ok report, s) → t.Advanced s.tree) ∧
      ∀ err, Session.merge editor settings root target targetRoot ⟨t, store⟩ = (.error err, s) →
        s.tree = t := by
  have hsound := h.sound
  have htransaction : ∀ {α : Type} {edit : Edit α}, edit.Composed → ∀ store s,
      (∀ a, Session.run editor edit ⟨t, store⟩ = (.ok a, s) → t.Advanced s.tree) ∧
      ∀ err, Session.run editor edit ⟨t, store⟩ = (.error err, s) → s.tree = t := by
    intro α edit hedit store s
    exact ⟨fun a => Session.advanced_run hsound hedit,
      fun err => Session.tree_eq_of_error hsound hedit⟩
  refine ⟨fun hedit => ⟨?operations, htransaction hedit⟩, fun settings root target targetRoot => ?_⟩
  case operations =>
    rintro d rfl page version hv
    exact (hedit.changes editor d hsound).version?_eq hsound hv
  intro store s
  rcases Session.merge_cases editor settings root target targetRoot ⟨t, store⟩ with
    ⟨refusal, hrefused⟩ | ⟨edit, hedit, hrun⟩
  · rw [hrefused]
    refine ⟨fun _ hmerge => ?_, fun _ hmerge => ?_⟩
    · exact nomatch (Prod.mk.inj hmerge).1
    · rw [← (Prod.mk.inj hmerge).2]
  · -- The merge fails where the transaction fails.
    rw [hrun]
    obtain ⟨hok, herror⟩ := htransaction hedit store s
    generalize Session.run editor edit ⟨t, store⟩ = r at hok herror ⊢
    obtain ⟨err | report, s'⟩ := r
    · refine ⟨fun _ hmerge => (nomatch hmerge), fun _ hmerge => ?_⟩
      obtain rfl : s' = s := (Prod.mk.inj hmerge).2
      exact herror err rfl
    · refine ⟨fun _ hmerge => ?_, fun _ hmerge => (nomatch hmerge)⟩
      obtain rfl : s' = s := (Prod.mk.inj hmerge).2
      exact hok report rfl

/-- The texts of a page change their places, and the page is to get another name and the version
7. -/
def renumbering : Edit Unit := do
  let _ ← Edit.append 1 2
  Edit.update 1 { kind := .page "start" 7 false }

/-- What comes of that as a transaction. -/
def renumbered : Session :=
  (Session.run ⟨.anonymous, .unrestricted, .reject⟩ renumbering
    ⟨(({} : Tree).load twoTexts).2, {}⟩).2

/-- The page keeps its version, which then goes up by one for both of the operations. -/
theorem versions_renumbering :
    (renumbering.run ⟨.anonymous, .unrestricted, .reject⟩
      (Draft.start (({} : Tree).load twoTexts).2)).2.tree.version? 1 = some 0 ∧
    renumbered.tree.version? 1 = some 1 := by
  have hcomposed : renumbering.Composed := .bind (.append 1 2) fun _ => .update _ _
  have hbefore : (({} : Tree).load twoTexts).2.version? 1 = some 0 := by decide
  obtain ⟨hedits, -⟩ :=
    Visible.versions (.kept reachable_twoTexts) ⟨.anonymous, .unrestricted, .reject⟩
  obtain ⟨hwithin, hruns⟩ := hedits hcomposed
  refine ⟨hwithin _ (Draft.tree_start _) 1 0 hbefore, ?_⟩
  have hrun : (Session.run ⟨.anonymous, .unrestricted, .reject⟩ renumbering
      ⟨(({} : Tree).load twoTexts).2, {}⟩).1 = .ok () := by decide
  have hadvanced : (({} : Tree).load twoTexts).2.Advanced renumbered.tree :=
    (hruns {} renumbered).1 () (Prod.ext hrun rfl)
  have hmoved : renumbered.tree.node? 2 ≠ (({} : Tree).load twoTexts).2.node? 2 := by decide
  -- The text that has moved counts for the page.
  exact hadvanced.raised hbefore hmoved (.inl (by decide))

end Tree

end ContentTree
