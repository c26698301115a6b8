import ContentTree.Proofs.Draft.Documents
import ContentTree.Proofs.Session.Run

/-!
# Reachable trees

A tree is reachable when it comes from the empty tree by loading snapshots and by transactions, with
any editor and any store in each of them. Within a transaction, operations see drafts that may never
be kept. All of them are well-formed.

## Main definitions

* `Tree.Loads`: which loads count, all of them or those that succeed.
* `Tree.Reachable`: trees that come from the empty one.
* `Tree.Visible`: reachable trees, and drafts within a transaction.

## Main results

* `Reachable.sound`, `Reachable.coherent`: what holds of all reachable trees.
* `Visible.wellFormed`: whatever can be seen of a tree is well-formed.
* `Visible.documents`: the documents of nodes agree with the pages above them.
* `Session.run_error`: a transaction that fails leaves everything as it was.
-/

namespace ContentTree

open Relation

namespace Tree

/-- Which loads count. -/
inductive Loads
  /-- All of them. What a failed load has added remains. -/
  | all
  /-- Those that succeed. -/
  | successful

/-- Whether a load with the given result counts. -/
def Loads.Accepts : Loads → Except TreeError NodeId → Prop
  | all, _ => True
  | successful, result => ∃ id, result = .ok id

variable {t : Tree} {counts : Loads}

/-- The trees that come from the empty one by loading and by transactions. -/
inductive Reachable (counts : Loads) : Tree → Prop
  | empty : Reachable counts {}
  | load {t : Tree} (h : Reachable counts t) (s : Snapshot) (hs : counts.Accepts (t.load s).1) :
    Reachable counts (t.load s).2
  | run {t : Tree} {α : Type} {edit : Edit α} (h : Reachable counts t) (editor : Editor)
    (hedit : edit.Composed) (store : Store) :
    Reachable counts (Session.run editor edit ⟨t, store⟩).2.tree

/-- Reachable trees, and what operations see of them within a transaction. -/
inductive Visible (counts : Loads) : Tree → Prop
  | kept {t : Tree} (h : t.Reachable counts) : Visible counts t
  | within {t : Tree} {α : Type} {edit : Edit α} (h : t.Reachable counts) (editor : Editor)
    (hedit : edit.Composed) : Visible counts (edit.run editor (Draft.start t)).2.tree

theorem sound_empty : ({} : Tree).Sound where
  keyed id n hn := by simp [node?_empty] at hn
  child_iff {p i c} := by simp [children_of_none, node?_empty]
  root_position hn := by simp [node?_empty] at hn
  acyclic id hb := by
    obtain ⟨p, hp, -⟩ := hb.exists_under
    obtain ⟨n, hn, -⟩ := hp.exists_node
    simp [node?_empty] at hn
  page_root hn := by simp [node?_empty] at hn
  id_le_lastId hn := by simp [node?_empty] at hn
  shadow_page hs := nomatch hs

theorem coherent_empty : ({} : Tree).Coherent where
  document_eq hc := by
    obtain ⟨n, hn, -⟩ := hc.exists_node
    simp [node?_empty] at hn
  pages id n page hn := by simp [node?_empty] at hn

/-- A property of sound trees that changes and higher versions keep is kept by transactions, however
they end. -/
theorem run_induction {α : Type} {edit : Edit α} {P : Tree → Prop} (h : t.Sound) (editor : Editor)
    (hedit : edit.Composed) (store : Store) (ht : P t)
    (hchanges : ∀ d, (Draft.start t).Changes editor d → P d.tree)
    (hbump : ∀ (d : Draft) page, d.tree.Sound → P d.tree → P (d.bumpVersion page).tree) :
    P (Session.run editor edit ⟨t, store⟩).2.tree := by
  cases hopen : store.staged with
  | some staged =>
    have hrun : (Session.run editor edit ⟨t, store⟩).2.tree = t := by
      simp [Session.run, Store.begin, hopen]
    rwa [hrun]
  | none =>
    have hend := Session.ending_run editor store hedit h hopen
    generalize (Session.run editor edit ⟨t, store⟩).1 = r at hend
    generalize (Session.run editor edit ⟨t, store⟩).2 = s at hend ⊢
    cases hend with
    | refused _ => exact ht
    | notPersisted _ _ _ _ => exact ht
    | notCommitted _ _ _ _ => exact ht
    | committed _ _ _ _ _ _ =>
      have hch := hedit.changes editor (Draft.start t) h
      refine (Draft.bumpPages_induction (P := fun d => d.tree.Sound ∧ P d.tree) ?_
        ⟨hch.sound h, hchanges _ hch⟩).2
      exact fun d page hd => ⟨hd.1.bumpVersion page, hbump d page hd.1 hd.2⟩

theorem Reachable.sound (h : t.Reachable counts) : t.Sound := by
  induction h with
  | empty => exact sound_empty
  | load _ s _ ih => exact ih.load s
  | run _ editor hedit store ih =>
    exact run_induction ih editor hedit store ih (fun _ hch => hch.sound ih)
      fun _ page hd _ => hd.bumpVersion page

theorem Reachable.coherent (h : t.Reachable .successful) : t.Coherent := by
  induction h with
  | empty => exact coherent_empty
  | load h _ hs ih =>
    obtain ⟨id, hs⟩ := hs
    exact ih.load h.sound hs
  | run h editor hedit store ih =>
    exact run_induction h.sound editor hedit store ih (fun _ hch => hch.coherent h.sound ih)
      fun _ page hd hc => Draft.coherent_bumpVersion hd.keyed hc page

/-- A merge is a transaction, or is refused before it begins. -/
theorem Reachable.merge (h : t.Reachable counts) (editor : Editor) (settings : Merge.Settings)
    (root : NodeId) (target : Tree) (targetRoot : NodeId) (store : Store) :
    (Session.merge editor settings root target targetRoot ⟨t, store⟩).2.tree.Reachable counts := by
  rcases Session.merge_cases editor settings root target targetRoot ⟨t, store⟩ with
    ⟨err, hmerge⟩ | ⟨edit, hedit, hmerge⟩
  · rw [hmerge]
    exact h
  · rw [hmerge]
    exact h.run editor hedit store

/-- What holds of reachable trees, and is kept by changes, holds of whatever can be seen. -/
theorem Visible.elim {P : Tree → Prop} (h : t.Visible counts)
    (hkept : ∀ t : Tree, t.Reachable counts → P t)
    (hchanges : ∀ (t : Tree) (editor : Editor) (d : Draft), t.Reachable counts →
      (Draft.start t).Changes editor d → P d.tree) : P t := by
  cases h with
  | kept h => exact hkept _ h
  | within h editor hedit =>
    exact hchanges _ editor _ h (hedit.changes editor (Draft.start _) h.sound)

/-- Whatever can be seen of a tree is well-formed: after any number of loads and transactions, and
in the middle of a transaction. -/
theorem Visible.wellFormed (h : t.Visible counts) : t.WellFormed :=
  h.elim (fun _ h => h.sound.toWellFormed) fun _ _ _ h hch => (hch.sound h.sound).toWellFormed

/-- A page with two texts. -/
def twoTexts : Snapshot :=
  .mk (some 1) { kind := .page "home" 0 false } none
    [.mk (some 2) { kind := .text "first" none } none [],
      .mk (some 3) { kind := .text "second" none } none []]

theorem reachable_twoTexts : (({} : Tree).load twoTexts).2.Reachable .successful :=
  .load .empty twoTexts ⟨1, by decide⟩

/-- The first of the texts moves behind the second. -/
theorem wellFormed_append_twoTexts :
    (Session.run ⟨.anonymous, .unrestricted, .reject⟩ (Edit.append 1 2)
      ⟨(({} : Tree).load twoTexts).2, {}⟩).2.tree.children 1 = [3, 2] ∧
    (Session.run ⟨.anonymous, .unrestricted, .reject⟩ (Edit.append 1 2)
      ⟨(({} : Tree).load twoTexts).2, {}⟩).2.tree.WellFormed :=
  ⟨by decide, Visible.wellFormed (.kept (reachable_twoTexts.run _ (.append 1 2) _))⟩

/-- Where all loads succeed, the documents of nodes agree with the pages above them. A node belongs
to the document of its parent, and recorded documents are pages; hence everything below a page
belongs to it, and nothing in the trash stands below any page. -/
theorem Visible.documents (h : t.Visible .successful) :
    (∀ c p, t.Under c p → t.document? c = t.document? p) ∧
    (∀ id n page, t.node? id = some n → n.document = some page →
      ∃ m, t.node? page = some m ∧ m.kind.isPage = true) ∧
    (∀ page m c n, t.node? page = some m → m.kind.isPage = true → t.node? c = some n →
      t.Below c page → n.document = some page) ∧
    (∀ root c page m, t.inTrash root = true → t.Within c root → t.node? page = some m →
      m.kind.isPage = true → ¬ t.Below c page) := by
  have hc : t.Coherent :=
    h.elim (fun _ h => h.coherent) fun _ _ _ h hch => hch.coherent h.sound h.coherent
  have hwf := h.wellFormed
  have hpage : ∀ page m c, t.node? page = some m → m.kind.isPage = true → t.Below c page →
      t.document? c = some page := by
    intro page m c hm hk hb
    rw [hc.document_within hb.within, document?_eq hm, Node.owningPage, if_pos hk, hwf.keyed hm]
  refine ⟨fun _ _ => hc.document_eq, fun _ _ _ hn hd => hc.pages hn hd, ?_, ?_⟩
  · intro page m c n hm hk hn hb
    obtain ⟨p, hp, -⟩ := hb.exists_under
    have hdoc := hpage page m c hm hk hb
    rwa [document?_eq hn, Node.owningPage, hwf.not_page_of_under hp hn, if_neg Bool.false_ne_true]
      at hdoc
  · intro root c page m htrash hw hm hk hb
    -- The root of the branch belongs to no document, and neither does anything below it.
    cases hr : t.node? root with
    | none => simp [inTrash, hr] at htrash
    | some r =>
      simp only [inTrash, hr, Bool.and_eq_true, Bool.not_eq_true', Option.isNone_iff_eq_none]
        at htrash
      have hnone : t.document? root = none := by
        rw [document?_eq hr, Node.owningPage, htrash.1.1, if_neg Bool.false_ne_true, htrash.2]
      have hsome := hpage page m c hm hk hb
      rw [hc.document_within hw, hnone] at hsome
      exact Option.some_ne_none _ hsome.symm

/-- One of the texts goes to the trash, and the other stays below its page. -/
theorem documents_trash_twoTexts :
    ∃ t : Tree, t = (Session.run ⟨.anonymous, .unrestricted, .reject⟩ (Edit.trash 2)
      ⟨(({} : Tree).load twoTexts).2, {}⟩).2.tree ∧ t.inTrash 2 = true ∧ ¬ t.Below 2 1 ∧
      t.Below 3 1 ∧ t.document? 3 = t.document? 1 := by
  obtain ⟨hparent, -, -, htrash⟩ :=
    Visible.documents (.kept (reachable_twoTexts.run ⟨.anonymous, .unrestricted, .reject⟩
      (.trash 2) {}))
  have hunder : Under (Session.run ⟨.anonymous, .unrestricted, .reject⟩ (Edit.trash 2)
      ⟨(({} : Tree).load twoTexts).2, {}⟩).2.tree 3 1 := by
    unfold Under
    decide
  refine ⟨_, rfl, by decide, ?_, TransGen.single hunder, hparent 3 1 hunder⟩
  obtain ⟨m, hm, hk⟩ : ∃ m, (Session.run ⟨.anonymous, .unrestricted, .reject⟩ (Edit.trash 2)
      ⟨(({} : Tree).load twoTexts).2, {}⟩).2.tree.node? 1 = some m ∧ m.kind.isPage = true :=
    ⟨_, by rfl, rfl⟩
  exact htrash 2 2 1 m (by decide) .refl hm hk

end Tree

namespace Session

variable {α : Type} {editor : Editor} {edit : Edit α} {t : Tree} {store : Store}
  {e : TransactionError}

/-- A transaction that fails leaves everything as it was. The tree is the same, and the store is
closed and has taken nothing. A store that can only refuse a commit is the same, too, unless the
commit was refused: the refusal is then used up. -/
theorem run_error {counts : Tree.Loads} (ht : t.Reachable counts) (hedit : edit.Composed)
    (hopen : store.staged = none) (hfail : (run editor edit ⟨t, store⟩).1 = .error e) :
    (run editor edit ⟨t, store⟩).2.tree = t ∧
    (run editor edit ⟨t, store⟩).2.store.committed = store.committed ∧
    (run editor edit ⟨t, store⟩).2.store.commits = store.commits ∧
    (run editor edit ⟨t, store⟩).2.store.staged = none ∧
    (store.Plain → (run editor edit ⟨t, store⟩).2 = ⟨t, store⟩ ∨
      ∃ reason, store.refuseCommit = some reason ∧ e = .store (.commitFailed reason) ∧
        (run editor edit ⟨t, store⟩).2 = ⟨t, { store with refuseCommit := none }⟩) := by
  have hend := ending_run editor store hedit ht.sound hopen
  rw [hfail] at hend
  generalize (run editor edit ⟨t, store⟩).2 = s at hend ⊢
  cases hend with
  | refused _ =>
    refine ⟨rfl, rfl, rfl, rfl, fun hplain => .inl ?_⟩
    rw [closed, ← hplain.rolls_back, ← hopen]
  | notPersisted _ _ refused not_plain =>
    exact ⟨rfl, rfl, rfl, rfl, fun hplain => absurd hplain.persists not_plain⟩
  | notCommitted _ refuse refused plain =>
    refine ⟨rfl, rfl, rfl, rfl, fun hplain => .inr ⟨_, refuse, rfl, ?_⟩⟩
    rw [plain hplain.persists, ← hplain.persists, ← hopen]

/-- The texts of a page change their places, but the store is full. -/
theorem run_error_full :
    (run ⟨.anonymous, .unrestricted, .reject⟩ (Edit.append 1 2)
      ⟨(({} : Tree).load Tree.twoTexts).2, { refuseCommit := some "full" }⟩).2 =
    ⟨(({} : Tree).load Tree.twoTexts).2, {}⟩ := by
  have hfail : (run ⟨.anonymous, .unrestricted, .reject⟩ (Edit.append 1 2)
      ⟨(({} : Tree).load Tree.twoTexts).2, { refuseCommit := some "full" }⟩).1 =
      .error (.store (.commitFailed "full")) := by
    decide
  obtain ⟨-, -, -, -, hplain⟩ := run_error Tree.reachable_twoTexts (.append 1 2) rfl hfail
  rcases hplain ⟨rfl, rfl⟩ with h | ⟨_, -, -, h⟩
  · exact absurd (congrArg (·.store.refuseCommit) h) (by decide)
  · exact h

end Session

end ContentTree
