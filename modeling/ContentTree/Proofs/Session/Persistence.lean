import ContentTree.Proofs.Draft.Load
import ContentTree.Proofs.Session.Reach

/-!
# Store and tree

A session begins with nothing and goes on by loads, transactions and merges, while somebody outside
may tell the store to refuse what comes next. The store then never has a node that differs from the
one in the tree. Only transactions write to it: it receives what they touch, so that every node a
transaction has created or changed is in the store from then on. What was loaded and never touched
is not in the store.

## Main definitions

* `Session.Step`, `Session.Steps`: what can happen to a session, once and any number of times.
* `Session.InStep`: the store has no nodes but those of the tree.
* `Draft.Flushed`: what a draft has touched has been written to a table of nodes.
* `Store.Retains`: a store has an entry for every node that another one has.

## Main results

* `Session.persisted_run`: what a transaction does to the store.
* `Session.persisted_of_steps`: the same of a session from its beginning.
-/

namespace ContentTree

open Relation

namespace Session

/-- What can happen to a session. -/
inductive Step : Session → Session → Prop
  /-- A snapshot is loaded, with success or without. -/
  | load (s : Session) (snapshot : Snapshot) :
    Step s { s with tree := (s.tree.load snapshot).2 }
  /-- Operations run as one transaction, to whatever end. -/
  | run {α : Type} {edit : Edit α} (s : Session) (editor : Editor) (hedit : edit.Composed) :
    Step s (Session.run editor edit s).2
  /-- The store is told what to refuse. -/
  | refuse (s : Session) (refuseCommit : Option String) (refusePersist : Std.ExtTreeSet NodeId)
    (refuseRollback : Bool) :
    Step s { s with store := { s.store with refuseCommit, refusePersist, refuseRollback } }

/-- Any number of steps. -/
abbrev Steps : Session → Session → Prop := ReflTransGen Step

variable {α : Type} {edit : Edit α} {s s' : Session}

/-- A merge is a transaction, or nothing. -/
theorem steps_merge (editor : Editor) (settings : Merge.Settings) (root : NodeId) (target : Tree)
    (targetRoot : NodeId) (s : Session) :
    Steps s (Session.merge editor settings root target targetRoot s).2 := by
  rcases merge_cases editor settings root target targetRoot s with
    ⟨err, hmerge⟩ | ⟨edit, hedit, hmerge⟩
  · rw [hmerge]
  · rw [hmerge]
    exact .single (.run s editor hedit)

/-- The store of a session has no nodes but those of the tree, and no transaction is open. -/
structure InStep (s : Session) : Prop where
  sound : s.tree.Sound
  closed : s.store.staged = none
  stored : ∀ {id n}, s.store.committed[id]? = some n → s.tree.node? id = some n

end Session

/-! ### What a commit leaves -/

/-- A table of nodes has gone over into another. What a draft has touched is there as it is in the
draft, and everything else is as it was. -/
def Draft.Flushed (d : Draft) (nodes nodes' : Std.ExtTreeMap NodeId Node) : Prop :=
  ∀ id, nodes'[id]? = if id ∈ d.touched then d.tree.node? id else nodes[id]?

namespace Draft.Flushed

variable {t : Tree} {d : Draft} {nodes nodes' : Std.ExtTreeMap NodeId Node} {id : NodeId} {n : Node}

theorem stored (h : d.Flushed nodes nodes') (hrecords : Records t d)
    (hnodes : ∀ {id n}, nodes[id]? = some n → t.node? id = some n) (hn : nodes'[id]? = some n) :
    d.tree.node? id = some n := by
  rw [h] at hn
  split at hn
  · exact hn
  · next hid => exact (hrecords.node?_eq hid).trans (hnodes hn)

/-- An entry stays, because the node was in the tree and is still there. -/
theorem retains (h : d.Flushed nodes nodes') (hkeep : Tree.KeepsKinds t d.tree)
    (hnodes : ∀ {id n}, nodes[id]? = some n → t.node? id = some n) (hid : id ∈ nodes) :
    id ∈ nodes' := by
  rw [Std.ExtTreeMap.mem_iff_isSome_getElem?] at hid ⊢
  obtain ⟨n, hn⟩ := Option.isSome_iff_exists.mp hid
  obtain ⟨m, hm, -⟩ := hkeep (hnodes hn)
  rw [h]
  split
  · exact Option.isSome_iff_exists.mpr ⟨m, hm⟩
  · exact hid

/-- Whatever is new or differs was touched, and has an entry. -/
theorem mem_of_ne (h : d.Flushed nodes nodes') (hrecords : Records t d)
    (hkeep : Tree.KeepsKinds t d.tree) (hne : d.tree.node? id ≠ t.node? id) : id ∈ nodes' := by
  have hid : id ∈ d.touched := by
    by_contra hid
    exact hne (hrecords.node?_eq hid)
  rw [Std.ExtTreeMap.mem_iff_isSome_getElem?, h, if_pos hid, Option.isSome_iff_ne_none]
  intro hnone
  -- Nodes do not vanish, so it would never have been there.
  cases hn : t.node? id with
  | none => exact hne (hnone.trans hn.symm)
  | some n =>
    obtain ⟨m, hm, -⟩ := hkeep hn
    exact Option.some_ne_none m (hm.symm.trans hnone)

end Draft.Flushed

/-- A store has an entry for every node that another one has. -/
def Store.Retains (store store' : Store) : Prop :=
  ∀ id, id ∈ store.committed → id ∈ store'.committed

/-! ### Steps -/

namespace Session

variable {α : Type} {edit : Edit α} {s s' : Session}

/-- A transaction leaves a session in step. The store loses no entry, and has one for every node
that is new or differs from before. -/
theorem persisted_run (h : s.InStep) (editor : Editor) (hedit : edit.Composed) :
    (run editor edit s).2.InStep ∧ s.store.Retains (run editor edit s).2.store ∧
      ∀ id, (run editor edit s).2.tree.node? id ≠ s.tree.node? id →
        id ∈ (run editor edit s).2.store.committed := by
  obtain ⟨t, store⟩ := s
  have hchanges := hedit.changes editor (Draft.start t) h.sound
  have hend := ending_run editor store hedit h.sound h.closed
  generalize (run editor edit ⟨t, store⟩).1 = result at hend
  generalize (run editor edit ⟨t, store⟩).2 = s' at hend ⊢
  -- Only the last way to end writes to the tree or to the store.
  cases hend with
  | refused _ => exact ⟨⟨h.sound, rfl, h.stored⟩, fun _ => id, fun _ hne => absurd rfl hne⟩
  | notPersisted _ _ _ _ =>
    exact ⟨⟨h.sound, rfl, h.stored⟩, fun _ => id, fun _ hne => absurd rfl hne⟩
  | notCommitted _ _ _ _ =>
    exact ⟨⟨h.sound, rfl, h.stored⟩, fun _ => id, fun _ hne => absurd rfl hne⟩
  | committed _ _ staged stages _ _ =>
    generalize (edit.run editor (Draft.start t)).2 = d at hchanges stages ⊢
    have hsound := hchanges.sound h.sound
    have hkeep : Tree.KeepsKinds t d.bumpPages.tree :=
      (hchanges.keepsKinds h.sound).trans (Draft.keepsKinds_bumpPages hsound)
    have hflushed : d.bumpPages.Flushed store.committed
        (Store.merged store.committed staged) := by
      intro id
      rw [Store.getElem?_merged, stages]
      split <;> rfl
    exact ⟨⟨Draft.sound_bumpPages hsound, rfl, hflushed.stored hchanges.records h.stored⟩,
      fun _ => hflushed.retains hkeep h.stored, fun _ => hflushed.mem_of_ne hchanges.records hkeep⟩

/-- A session stays in step, and its store loses no entry. -/
theorem InStep.step (h : s.InStep) (hstep : Step s s') :
    s'.InStep ∧ s.store.Retains s'.store := by
  cases hstep with
  | load _ snapshot =>
    -- Loading leaves alone what is there, and the store is not concerned.
    have hold := h.sound.extends_load snapshot
    exact ⟨⟨h.sound.load snapshot, h.closed, fun hn => hold (h.stored hn)⟩, fun _ => id⟩
  | run _ editor hedit =>
    obtain ⟨hrun, hretains, -⟩ := persisted_run h editor hedit
    exact ⟨hrun, hretains⟩
  | refuse _ _ _ _ => exact ⟨⟨h.sound, h.closed, h.stored⟩, fun _ => id⟩

theorem InStep.steps (h : s.InStep) (hsteps : Steps s s') :
    s'.InStep ∧ s.store.Retains s'.store := by
  induction hsteps with
  | refl => exact ⟨h, fun _ => id⟩
  | tail _ hstep ih =>
    obtain ⟨hmiddle, hretains⟩ := ih
    obtain ⟨hlast, hretains'⟩ := hmiddle.step hstep
    exact ⟨hlast, fun id hid => hretains' id (hretains id hid)⟩

theorem inStep_empty : ({} : Session).InStep where
  sound := Tree.sound_empty
  closed := rfl
  stored h := by simp at h

/-- Whatever steps a session has taken, the nodes that its store has are those of the tree. Whatever
an earlier transaction has created or changed, the versions of pages included, is among them. -/
theorem persisted_of_steps (h : Steps {} s) :
    (∀ id n, s.store.committed[id]? = some n → s.tree.node? id = some n) ∧
    ∀ {α : Type} {edit : Edit α} {earlier : Session}, Steps {} earlier →
      ∀ editor : Editor, edit.Composed → Steps (run editor edit earlier).2 s →
      ∀ id, (run editor edit earlier).2.tree.node? id ≠ earlier.tree.node? id →
        ∃ n, s.store.committed[id]? = some n ∧ s.tree.node? id = some n := by
  obtain ⟨hstep, -⟩ := inStep_empty.steps h
  refine ⟨fun _ _ => hstep.stored, fun hearlier editor hedit hlater id hne => ?_⟩
  obtain ⟨hbefore, -⟩ := inStep_empty.steps hearlier
  obtain ⟨hafter, -, hwritten⟩ := persisted_run hbefore editor hedit
  obtain ⟨-, hretains⟩ := hafter.steps hlater
  have hid := hretains id (hwritten id hne)
  rw [Std.ExtTreeMap.mem_iff_isSome_getElem?] at hid
  obtain ⟨n, hn⟩ := Option.isSome_iff_exists.mp hid
  exact ⟨n, hn, hstep.stored hn⟩

/-- The texts of a page have changed their places. -/
def reordered : Session :=
  (run ⟨.anonymous, .unrestricted, .reject⟩ (Edit.append 1 2)
    ⟨(({} : Tree).load Tree.twoTexts).2, {}⟩).2

/-- They were to change back, but the store was full. -/
def refusedBack : Session :=
  (run ⟨.anonymous, .unrestricted, .reject⟩ (Edit.append 1 3)
    { reordered with store := { reordered.store with refuseCommit := some "full" } }).2

/-- The page is still stored as the first of the transactions has left it, with its new version. -/
theorem persisted_of_steps_refusedBack :
    ∃ n, refusedBack.store.committed[(1 : NodeId)]? = some n ∧
      refusedBack.tree.node? 1 = some n ∧ n.kind.version? = some 1 := by
  have hloaded : Steps {} ⟨(({} : Tree).load Tree.twoTexts).2, {}⟩ :=
    .single (.load {} Tree.twoTexts)
  have hlater : Steps reordered refusedBack :=
    .tail (.single (.refuse reordered (some "full") ∅ false)) (.run _ _ (.append 1 3))
  have hall : Steps {} refusedBack := (hloaded.tail (.run _ _ (.append 1 2))).trans hlater
  obtain ⟨-, hwritten⟩ := persisted_of_steps hall
  obtain ⟨n, hstored, hn⟩ := hwritten hloaded _ (.append 1 2) hlater 1 (by decide)
  have hversion : (refusedBack.tree.node? 1).bind (·.kind.version?) = some 1 := by decide
  rw [hn] at hversion
  exact ⟨n, hstored, hn, hversion⟩

end Session

end ContentTree
