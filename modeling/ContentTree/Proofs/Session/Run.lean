import ContentTree.Proofs.Draft.Journal
import ContentTree.Proofs.Edit.Composed

/-!
# How transactions end

A transaction of composed operations ends in one of four ways: an operation is refused, the store
does not take the touched nodes, the store refuses the commit, or everything is kept. In the first
three the journal takes the tree back to where it was, and the store is closed without having taken
anything.

## Main definitions

* `Session.Ending`: the four ways.
* `Store.Plain`, `Store.Accepting`: a store that refuses commits at most, and one that takes
  everything.

## Main results

* `Session.ending_run`: every transaction ends in one of these ways.
* `Session.merge_cases`: a merge is a transaction, too.
-/

namespace ContentTree

open Relation

/-! ### The store during a transaction -/

namespace Store

variable {s : Store}

/-- A store that refuses commits at most. -/
structure Plain (s : Store) : Prop where
  persists : s.refusePersist = ∅
  rolls_back : s.refuseRollback = false

/-- A closed store that takes everything. -/
structure Accepting (s : Store) : Prop where
  closed : s.staged = none
  persists : s.refusePersist = ∅
  commits : s.refuseCommit = none

/-- Apart from what is staged, and from refusals of single nodes that are used up, one store is as
another. -/
def Keeps (s s' : Store) : Prop :=
  ∃ staged refused, s' = { s with staged := some staged, refusePersist := refused }

theorem begin_of_closed (h : s.staged = none) :
    s.begin = (.ok (), { s with staged := some ∅ }) := by
  simp [begin, h]

theorem rollback_of_open {staged : Std.ExtTreeMap NodeId (Option Node)}
    (h : s.staged = some staged) :
    s.rollback.2 = { s with staged := none, refuseRollback := false } := by
  unfold rollback
  split <;> simp [h]

theorem Keeps.trans {s' s'' : Store} (h : s.Keeps s') (h' : s'.Keeps s'') : s.Keeps s'' := by
  obtain ⟨_, _, rfl⟩ := h
  obtain ⟨staged, refused, rfl⟩ := h'
  exact ⟨staged, refused, rfl⟩

theorem keeps_stage {staged : Std.ExtTreeMap NodeId (Option Node)} (h : s.staged = some staged)
    (id : NodeId) (write : Option Node) :
    (s.stage id write).1 = .ok () ∧ s.Keeps (s.stage id write).2 ∧
      (s.stage id write).2.refusePersist = s.refusePersist := by
  unfold stage
  rw [h]
  exact ⟨rfl, ⟨_, _, rfl⟩, rfl⟩

theorem keeps_persist {staged : Std.ExtTreeMap NodeId (Option Node)} (h : s.staged = some staged)
    (n : Node) : s.Keeps (s.persist n).2 ∧
      (s.refusePersist = ∅ → (s.persist n).1 = .ok () ∧ (s.persist n).2.refusePersist = ∅) := by
  unfold persist
  split
  · next hrefused =>
    refine ⟨⟨staged, s.refusePersist.erase n.id, by rw [← h]⟩, fun hnone => ?_⟩
    rw [hnone, Std.ExtTreeSet.contains_empty] at hrefused
    exact absurd hrefused Bool.false_ne_true
  · obtain ⟨hok, hkeeps, hrefuse⟩ := keeps_stage h n.id (some n)
    exact ⟨hkeeps, fun hnone => ⟨hok, hrefuse.trans hnone⟩⟩

/-- What is committed in the end: what was staged, and otherwise what was there. -/
theorem getElem?_merged (committed : Std.ExtTreeMap NodeId Node)
    (staged : Std.ExtTreeMap NodeId (Option Node)) (id : NodeId) :
    (merged committed staged)[id]? = staged[id]?.getD committed[id]? := by
  refine getElem?_foldl_overwrite (fun m x w y => ?_) staged committed id
  cases w <;>
    simp only [Std.ExtTreeMap.getElem?_insert, Std.ExtTreeMap.getElem?_erase,
      Std.compare_eq_iff_eq, eq_comm (a := y)]

theorem staged_of_stage {staged : Std.ExtTreeMap NodeId (Option Node)} (h : s.staged = some staged)
    (id : NodeId) (write : Option Node) :
    (s.stage id write).2.staged = some (staged.insert id write) := by
  rw [stage, h]

theorem staged_of_persist {staged : Std.ExtTreeMap NodeId (Option Node)}
    (h : s.staged = some staged) {n : Node} (hok : (s.persist n).1 = .ok ()) :
    (s.persist n).2.staged = some (staged.insert n.id (some n)) := by
  unfold persist at hok ⊢
  split
  · next hrefused =>
    rw [if_pos hrefused] at hok
    exact nomatch hok
  · exact staged_of_stage h n.id (some n)

end Store

namespace Draft

/-- Writes one node to the store as it is in a tree. -/
def persistOne (t : Tree) (id : NodeId) (s : Store) : Store.Outcome Unit :=
  match t.node? id with
  | some n => s.persist n
  | none => s.delete id

theorem persistAll_cons (t : Tree) (id : NodeId) (ids : List NodeId) (s : Store) :
    persistAll t (id :: ids) s =
      match persistOne t id s with
      | (.ok (), s) => persistAll t ids s
      | (.error e, s) => (.error e, s) := rfl

/-- Writing nodes to an open store stages them, and fails only where a node is to be refused. -/
theorem keeps_persistAll (t : Tree) (ids : List NodeId) :
    ∀ s : Store, s.staged.isSome = true → s.Keeps (persistAll t ids s).2 ∧
      (s.refusePersist = ∅ →
        (persistAll t ids s).1 = .ok () ∧ (persistAll t ids s).2.refusePersist = ∅) := by
  induction ids with
  | nil =>
    intro s hs
    obtain ⟨staged, hs⟩ := Option.isSome_iff_exists.mp hs
    exact ⟨⟨staged, s.refusePersist, by rw [← hs]; rfl⟩, fun h => ⟨rfl, h⟩⟩
  | cons id ids ih =>
    intro s hs
    obtain ⟨staged, hs⟩ := Option.isSome_iff_exists.mp hs
    have hone : s.Keeps (persistOne t id s).2 ∧ (s.refusePersist = ∅ →
        (persistOne t id s).1 = .ok () ∧ (persistOne t id s).2.refusePersist = ∅) := by
      unfold persistOne
      cases t.node? id with
      | some n => exact Store.keeps_persist hs n
      | none =>
        obtain ⟨hok, hkeeps, hrefuse⟩ := Store.keeps_stage hs id none
        exact ⟨hkeeps, fun h => ⟨hok, hrefuse.trans h⟩⟩
    rw [persistAll_cons]
    generalize persistOne t id s = r at hone ⊢
    obtain ⟨e | u, s'⟩ := r
    · exact ⟨hone.1, fun h => nomatch (hone.2 h).1⟩
    · -- The store remains open for the rest.
      have hopen : s'.staged.isSome = true := by
        obtain ⟨_, _, rfl⟩ := hone.1
        rfl
      obtain ⟨hrest, hrestplain⟩ := ih s' hopen
      exact ⟨hone.1.trans hrest, fun h => hrestplain (hone.2 h).2⟩

/-- When all nodes were taken, each of them is staged as it is in the tree. -/
theorem staged_persistAll {t : Tree} (ht : t.Keyed) (ids : List NodeId) :
    ∀ (s s' : Store) (before after : Std.ExtTreeMap NodeId (Option Node)),
      s.staged = some before → persistAll t ids s = (.ok (), s') → s'.staged = some after →
      ∀ x, after[x]? = if x ∈ ids then some (t.node? x) else before[x]? := by
  induction ids with
  | nil =>
    rintro s s' before after hs hrun hs' x
    obtain rfl := (Prod.mk.inj hrun).2
    rw [Option.some.inj (hs'.symm.trans hs), if_neg List.not_mem_nil]
  | cons id ids ih =>
    intro s s' before after hs hrun hs' x
    have hone : (persistOne t id s).1 = .ok () →
        (persistOne t id s).2.staged = some (before.insert id (t.node? id)) := by
      unfold persistOne
      cases hn : t.node? id with
      | some n =>
        intro hok
        rw [Store.staged_of_persist hs hok, ht hn]
      | none => exact fun _ => Store.staged_of_stage hs id none
    rw [persistAll_cons] at hrun
    generalize persistOne t id s = r at hone hrun
    obtain ⟨_ | _, s₁⟩ := r
    · exact nomatch (Prod.mk.inj hrun).1
    · -- An entry is the last one that was staged for its node, and all of them are alike.
      rw [ih s₁ s' _ _ (hone rfl) hrun hs' x, Std.ExtTreeMap.getElem?_insert]
      by_cases hx : x = id
      · subst hx
        simp
      · simp [hx, Ne.symm hx]

end Draft

/-! ### Ends of transactions -/

namespace Session

variable {α : Type} {edit : Edit α} {t : Tree}

/-- What a failed transaction leaves of a store: it is closed, and refusals may be used up. -/
def closed (store : Store) (refuseCommit : Option String) (refused : Std.ExtTreeSet NodeId) :
    Store :=
  { store with staged := none, refuseCommit, refusePersist := refused, refuseRollback := false }

/-- How a transaction on a tree ends. -/
inductive Ending (editor : Editor) (edit : Edit α) (t : Tree) (store : Store) :
    Except TransactionError α → Session → Prop
  /-- An operation was refused. -/
  | refused {e : TreeError} (run : (edit.run editor (Draft.start t)).1 = .error e) :
    Ending editor edit t store (.error (.tree e))
      ⟨t, closed store store.refuseCommit store.refusePersist⟩
  /-- The store did not take a node. -/
  | notPersisted {a : α} (run : (edit.run editor (Draft.start t)).1 = .ok a) (e : StoreError)
    (refused : Std.ExtTreeSet NodeId) (not_plain : store.refusePersist ≠ ∅) :
    Ending editor edit t store (.error (.store e)) ⟨t, closed store store.refuseCommit refused⟩
  /-- The store refused the commit. -/
  | notCommitted {a : α} (run : (edit.run editor (Draft.start t)).1 = .ok a) {reason : String}
    (refuse : store.refuseCommit = some reason) (refused : Std.ExtTreeSet NodeId)
    (plain : store.refusePersist = ∅ → refused = ∅) :
    Ending editor edit t store (.error (.store (.commitFailed reason)))
      ⟨t, { store with staged := none, refuseCommit := none, refusePersist := refused }⟩
  /-- Everything is kept. -/
  | committed {a : α} (run : (edit.run editor (Draft.start t)).1 = .ok a)
    (refuse : store.refuseCommit = none) (staged : Std.ExtTreeMap NodeId (Option Node))
    (stages : ∀ id, staged[id]? =
      if id ∈ (edit.run editor (Draft.start t)).2.bumpPages.touched
      then some ((edit.run editor (Draft.start t)).2.bumpPages.tree.node? id) else none)
    (refused : Std.ExtTreeSet NodeId) (plain : store.refusePersist = ∅ → refused = ∅) :
    Ending editor edit t store (.ok a)
      ⟨(edit.run editor (Draft.start t)).2.bumpPages.tree,
        { store with
          committed := Store.merged store.committed staged
          staged := none
          commits := store.commits + 1
          refusePersist := refused }⟩

/-- Every transaction of composed operations ends in one of the four ways. -/
theorem ending_run (editor : Editor) (store : Store) (hedit : edit.Composed) (ht : t.Sound)
    (hopen : store.staged = none) :
    Ending editor edit t store (run editor edit ⟨t, store⟩).1 (run editor edit ⟨t, store⟩).2 := by
  have hchanges := hedit.changes editor (Draft.start t) ht
  have hundo := Draft.undo_eq_of_writes hchanges.writes
  have hundo' := hchanges.records.undo_eq
  have hkeyed := (Draft.sound_bumpPages (hchanges.sound ht)).keyed
  unfold run
  simp only [Store.begin_of_closed hopen]
  generalize hrun : edit.run editor (Draft.start t) = r at hundo hundo' hkeyed
  -- After a refusal the journal is read back at once; otherwise the writes are handed to the store.
  obtain ⟨e | a, d⟩ := r
  · have h : Ending editor edit t store _ _ := .refused (congrArg Prod.fst hrun)
    dsimp only at hundo ⊢
    rw [hundo, Store.rollback_of_open rfl]
    exact h
  · have hrun' : (edit.run editor (Draft.start t)).1 = .ok a := congrArg Prod.fst hrun
    have hpersist := Draft.keeps_persistAll d.bumpPages.tree d.bumpPages.touched
      { store with staged := some ∅ } rfl
    have hstaged := fun s' after => Draft.staged_persistAll hkeyed d.bumpPages.touched
      { store with staged := some ∅ } s' ∅ after rfl
    dsimp only at hundo' ⊢
    generalize Draft.persistAll d.bumpPages.tree d.bumpPages.touched
      { store with staged := some ∅ } = r at hpersist hstaged ⊢
    obtain ⟨e | u, s'⟩ := r <;> obtain ⟨⟨staged, refused, rfl⟩, hplain⟩ := hpersist
    · dsimp only
      rw [hundo', Store.rollback_of_open rfl]
      exact .notPersisted hrun' e refused fun h => nomatch (hplain h).1
    · have hstages : ∀ id, staged[id]? =
          if id ∈ (edit.run editor (Draft.start t)).2.bumpPages.touched
          then some ((edit.run editor (Draft.start t)).2.bumpPages.tree.node? id) else none := by
        intro id
        rw [hrun, hstaged _ staged rfl rfl id, Std.ExtTreeMap.getElem?_empty]
      -- The commit takes everything that was staged, or nothing.
      cases hrefuse : store.refuseCommit with
      | some reason =>
        have h : Ending editor edit t store _ _ :=
          .notCommitted hrun' hrefuse refused fun hnone => (hplain hnone).2
        simp only [Store.commit, hundo']
        exact h
      | none =>
        have h : Ending editor edit t store _ _ :=
          .committed hrun' hrefuse staged hstages refused fun hnone => (hplain hnone).2
        rw [hrun, hrefuse] at h
        simp only [Store.commit]
        exact h

/-- A transaction succeeds where no operation is refused and the store takes everything. -/
theorem run_ok {editor : Editor} {store : Store} {a : α} {d : Draft} (hedit : edit.Composed)
    (ht : t.Sound) (hclosed : store.staged = none) (hpersist : store.refusePersist = ∅)
    (hcommit : store.refuseCommit = none) (hrun : edit.run editor (Draft.start t) = (.ok a, d)) :
    ∃ store', run editor edit ⟨t, store⟩ = (.ok a, ⟨d.bumpPages.tree, store'⟩) := by
  have hend := ending_run editor store hedit ht hclosed
  generalize run editor edit ⟨t, store⟩ = result at hend
  obtain ⟨outcome, s⟩ := result
  dsimp only at hend
  cases hend with
  | refused hrefused =>
    rw [hrun] at hrefused
    exact nomatch hrefused
  | notPersisted _ _ _ hplain => exact absurd hpersist hplain
  | notCommitted _ hrefuse => exact nomatch hrefuse.symm.trans hcommit
  | committed hok _ staged _ refused _ =>
    rw [hrun] at hok
    obtain rfl := Except.ok.inj hok
    exact ⟨_, by rw [hrun]⟩

/-- What a transaction that succeeds leaves is what its edit has left, with higher versions. -/
theorem exists_run_of_run_eq_ok {editor : Editor} {store : Store} {a : α} {s : Session}
    (hedit : edit.Composed) (ht : t.Sound) (hrun : run editor edit ⟨t, store⟩ = (.ok a, s)) :
    ∃ d, edit.run editor (Draft.start t) = (.ok a, d) ∧ d.tree.Sound ∧
      s.tree = d.bumpPages.tree := by
  cases hopen : store.staged with
  | some staged => simp [run, Store.begin, hopen] at hrun
  | none =>
    have hend := ending_run editor store hedit ht hopen
    rw [hrun] at hend
    cases hend with
    | committed hok _ _ _ _ _ =>
      exact ⟨_, Prod.ext hok rfl, (hedit.changes editor (Draft.start t) ht).sound ht, rfl⟩

/-- With a store that takes everything, a transaction succeeds exactly where no operation is
refused. -/
theorem exists_run_ok_iff {editor : Editor} {store : Store} (hedit : edit.Composed) (ht : t.Sound)
    (hstore : store.Accepting) : (∃ a, (run editor edit ⟨t, store⟩).1 = .ok a) ↔
      ∃ a, (edit.run editor (Draft.start t)).1 = .ok a := by
  constructor
  · rintro ⟨a, ha⟩
    obtain ⟨d, hd, -⟩ := exists_run_of_run_eq_ok hedit ht (Prod.ext ha rfl)
    exact ⟨a, congrArg Prod.fst hd⟩
  · rintro ⟨a, ha⟩
    obtain ⟨store', hrun⟩ := run_ok hedit ht hstore.closed hstore.persists hstore.commits
      (Prod.ext ha rfl)
    exact ⟨a, congrArg Prod.fst hrun⟩

/-- A merge is refused before it begins, or it is a transaction. -/
theorem merge_cases (editor : Editor) (settings : Merge.Settings) (root : NodeId) (target : Tree)
    (targetRoot : NodeId) (s : Session) :
    (∃ err, merge editor settings root target targetRoot s = (.error err, s)) ∨
    ∃ edit : Edit Merge.Report, edit.Composed ∧
      merge editor settings root target targetRoot s =
        ((run editor edit s).1.mapError .failed, (run editor edit s).2) := by
  unfold merge
  split
  · next err _ => exact .inl ⟨err, rfl⟩
  · next p _ =>
    refine .inr ⟨_, Merge.Apply.composed_plan settings p, ?_⟩
    rcases run editor (Merge.Apply.plan settings p) s with ⟨_ | _, s'⟩ <;> rfl

/-- Where an operation is refused, the transaction tells the reason, whatever the store does. -/
theorem run_refused {editor : Editor} {store : Store} {err : TreeError} (hedit : edit.Composed)
    (ht : t.Sound) (hclosed : store.staged = none)
    (hrun : (edit.run editor (Draft.start t)).1 = .error err) :
    (run editor edit ⟨t, store⟩).1 = .error (.tree err) := by
  have hend := ending_run editor store hedit ht hclosed
  generalize run editor edit ⟨t, store⟩ = result at hend
  obtain ⟨outcome, s⟩ := result
  dsimp only at hend
  cases hend with
  | refused hrefused => rw [Except.error.inj (hrefused.symm.trans hrun)]
  | notPersisted hok => exact nomatch hok.symm.trans hrun
  | notCommitted hok => exact nomatch hok.symm.trans hrun
  | committed hok => exact nomatch hok.symm.trans hrun

end Session

end ContentTree
