import ContentTree.Proofs.Draft.Untouched
import ContentTree.Proofs.Edit.Normalize
import ContentTree.Proofs.Session.Insertion

/-!
# Joining texts in transactions

After a transaction that joins all texts at and below a node, every run in that part of the tree has
been replaced by its first member, which says what the run has said. A second transaction finds
nothing to do and changes nothing. With a store that takes everything, the only reason for a refusal
is a run below a node whose children may not be changed.

## Main definitions

* `Tree.RunsJoined`: what joining all texts at and below a node makes of a tree.

## Main results

* `Tree.runsJoined_of_gathered`: gathered runs, when nothing is left to be joined.
* `Session.run_of_untouched`: a transaction that does nothing.
* `Session.normalization`: what joining texts makes of a tree, and when it is refused.
-/

namespace ContentTree

open Relation

/-- A content with another version, if it is that of a page. -/
def Content.withVersion (version : Nat) (c : Content) : Content :=
  { c with kind := c.kind.withVersion version }

theorem Content.exists_withVersion_self (c : Content) : ∃ version, c.withVersion version = c := by
  refine ⟨c.kind.version?.getD 0, ?_⟩
  rw [withVersion, Kind.withVersion_self fun v hv => by rw [hv, Option.getD_some]]

/-! ### Higher versions -/

namespace Draft

variable {d : Draft}

theorem content?_bumpPages (h : d.tree.Keyed) (x : NodeId) : ∃ version,
    d.bumpPages.tree.content? x = (d.tree.content? x).map (·.withVersion version) := by
  have hg := rewritten_bumpPages h
  rw [Tree.content?, hg.node?, Tree.content?]
  cases d.tree.node? x with
  | none => exact ⟨0, rfl⟩
  | some n =>
    obtain ⟨version, hversion⟩ : ∃ version,
        advance d.touchedPages.toList n = n.withVersion version := by
      unfold advance
      split
      · exact n.exists_bumped_eq
      · exact n.exists_withVersion_self.imp fun _ h => h.symm
    refine ⟨version, ?_⟩
    simp only [Option.map_some, hversion]
    rfl

/-- Nothing but a page has a version. -/
theorem content?_bumpPages_of_not_page (h : d.tree.Keyed) {x : NodeId}
    (hpage : ∀ c, d.tree.content? x = some c → c.kind.isPage = false) :
    d.bumpPages.tree.content? x = d.tree.content? x := by
  obtain ⟨version, hversion⟩ := content?_bumpPages h x
  rw [hversion]
  cases hc : d.tree.content? x with
  | none => rfl
  | some c =>
    have hkind : c.kind.withVersion version = c.kind := Kind.withVersion_self fun v hv =>
      absurd (hpage c hc) (by simp [Kind.isPage_of_version? hv])
    rw [Option.map_some, Content.withVersion, hkind]

theorem isText_bumpPages (h : d.tree.Keyed) (x : NodeId) :
    d.bumpPages.tree.isText x = d.tree.isText x := by
  obtain ⟨version, hversion⟩ := content?_bumpPages h x
  rw [Tree.isText_eq_of_content?, Tree.isText_eq_of_content?, hversion]
  cases d.tree.content? x with
  | none => rfl
  | some c => cases hk : c.kind <;> simp [Content.withVersion, hk, Kind.withVersion, Kind.isText]

theorem bumpPages_start (t : Tree) : (start t).bumpPages = start t := by
  have htouched : (start t).touched = [] := by simp [touched, start]
  rw [bumpPages, touchedPages, htouched]
  rfl

end Draft

/-! ### What becomes of a tree -/

namespace Tree

variable {t t' t'' : Tree} {root x z : NodeId}

/-- What joining all texts at and below `root` makes of a tree. In the lists of children there, the
first members of the runs are left, and they say what the runs have said; the others are in the
trash. Other lists are as before, and so is every other content, but that a page may have another
version. -/
structure RunsJoined (t t' : Tree) (root : NodeId) : Prop where
  children : ∀ z, t'.Within z root → t'.children z = (t.runs z).filterMap List.head?
  separate : ∀ z, t'.Within z root → t'.Separate z
  first : ∀ z first rest, t'.Within z root → first :: rest ∈ t.runs z →
    t'.content? first = (t.content? first).map (·.withText (t.runText (first :: rest)))
  rest : ∀ z first rest, t'.Within z root → first :: rest ∈ t.runs z →
    ∀ x ∈ rest, t'.inTrash x = true
  children_outside : ∀ z, ¬ t'.Within z root → t'.children z = t.children z
  content : ∀ x, (∀ z rest, t'.Within z root → x :: rest ∈ t.runs z → rest = []) →
    ∃ version, t'.content? x = (t.content? x).map (·.withVersion version)
  textContent : t'.textContent root = t.textContent root

/-- What one has said below a node one still says if nothing has changed there. -/
theorem textContent_congr (ht : t.WellFormed) (ht' : t'.WellFormed)
    (hchildren : ∀ z, t'.children z = t.children z) (htext : ∀ x, t'.isText x = t.isText x)
    (hown : ∀ x, t.isText x = true → t'.ownText x = t.ownText x) (z : NodeId) :
    t'.textContent z = t.textContent z := by
  induction hk : t.extent z using Nat.strong_induction_on generalizing z with
  | _ k ih =>
    rw [ht.textContent_eq, ht'.textContent_eq, htext, hchildren]
    split
    · next hz => exact hown z hz
    · congr 1
      exact List.map_congr_left fun c hc =>
        ih _ (hk ▸ ht.extent_lt (ht.mem_children_iff.mp hc)) c rfl

/-- Whatever was below the root still is, or it has left the document. -/
theorem Gathered.within_or (h : Gathered t t') (ht : t.WellFormed) (ht' : t'.WellFormed)
    (hc : t'.Coherent) (hw : t.Within x root) :
    t'.Within x root ∨ t'.document? x = none := by
  induction hw using ReflTransGen.head_induction_on with
  | refl => exact .inl .refl
  | @head x y hxy hy ih =>
    by_cases hxy' : t'.Under x y
    · exact ih.imp (fun hw => hw.head hxy') fun hnone => (hc.document_eq hxy').trans hnone
    · -- It is none of the first members, and so it is in the trash.
      obtain ⟨gs, hold, hnew, hall⟩ := h.parts y
      have hmem : x ∈ assembled gs := hold ▸ ht.mem_children_iff.mpr hxy
      obtain ⟨g, hg, hx⟩ := List.mem_flatMap.mp hmem
      rcases List.mem_cons.mp hx with rfl | hx
      · exact absurd (ht'.mem_children_iff.mp (hnew ▸ List.mem_map_of_mem hg)) hxy'
      · obtain ⟨_, _, _, _, hnone⟩ := inTrash_iff.mp ((hall g hg).trash x hx).1
        exact .inr hnone

/-- Gathered runs, when no two texts are left side by side. -/
theorem runsJoined_of_gathered (h : Gathered t t') (ht : t.WellFormed) (ht' : t'.WellFormed)
    (hc : t'.Coherent) (hconfined : Confined root (t.Below · root) t t')
    (hsep : ∀ z, t'.Within z root → t'.Separate z) : RunsJoined t t' root where
  children z hz := (h.runs (hsep z hz)).1
  separate := hsep
  first z first rest hz hrun := ((h.runs (hsep z hz)).2 first rest hrun).content
  rest z first rest hz hrun x hx := (((h.runs (hsep z hz)).2 first rest hrun).trash x hx).1
  children_outside z hz := by
    by_cases hw : t.Within z root
    · exact h.untouched z ((h.within_or ht ht' hc hw).resolve_left hz)
    · exact hconfined.children z (fun heq => hw (heq ▸ .refl)) fun hb => hw hb.within
  content x hx := by
    suffices hsame : t'.content? x = t.content? x by
      rw [hsame]
      cases t.content? x with
      | none => exact ⟨0, rfl⟩
      | some c => exact c.exists_withVersion_self.imp fun _ h => congrArg some h.symm
    by_cases hbelow : t.Below x root
    · obtain ⟨z, hxz, hz⟩ := hbelow.exists_under
      rcases h.within_or ht ht' hc hz with hz' | hnone
      · -- A child belongs to one of the runs.
        have hmem : x ∈ (t.runs z).flatten := by
          rw [runs, List.flatten_splitBy]
          exact ht.mem_children_iff.mpr hxz
        obtain ⟨run, hrun, hxrun⟩ := List.mem_flatten.mp hmem
        obtain ⟨first, rest, rfl⟩ := List.exists_cons_of_ne_nil (List.ne_nil_of_mem hxrun)
        have hover := (h.runs (hsep z hz')).2 first rest hrun
        rcases List.mem_cons.mp hxrun with rfl | hxrest
        · exact ((hx z rest hz' hrun) ▸ hover).content_eq
        · exact (hover.trash x hxrest).2
      · exact h.content_of_children_eq ht (h.untouched z hnone) hxz
    · exact hconfined.content x hbelow
  textContent := by
    cases htext : t.isText root with
    | false => exact h.textContent_eq ht ht' htext
    | true =>
      have hcontent := hconfined.content root (ht.acyclic root)
      rw [ht'.textContent_eq, ht.textContent_eq, h.isText, if_pos htext, if_pos htext,
        ownText_eq_of_content?, ownText_eq_of_content?, hcontent]

/-- A higher version of a page changes nothing of this. -/
theorem RunsJoined.bumpPages {d : Draft} (h : RunsJoined t d.tree root) (hd : d.tree.Sound) :
    RunsJoined t d.bumpPages.tree root := by
  have hwf := hd.toWellFormed
  have hwithin : ∀ {x y}, d.bumpPages.tree.Within x y → d.tree.Within x y := fun hw =>
    ReflTransGen.mono (fun x _ hu => (Draft.parent?_bumpPages hd.keyed x).symm.trans hu) _ _ hw
  have hwithin' : ∀ {x y}, d.tree.Within x y → d.bumpPages.tree.Within x y := fun hw =>
    ReflTransGen.mono (fun x _ hu => (Draft.parent?_bumpPages hd.keyed x).trans hu) _ _ hw
  refine
    { children := fun z hz =>
        (Draft.children_bumpPages hd.keyed z).trans (h.children z (hwithin hz))
      separate := fun z hz => ?separate, first := fun z first rest hz hrun => ?first
      rest := fun z first rest hz hrun x hx => ?rest
      children_outside := fun z hz => (Draft.children_bumpPages hd.keyed z).trans
        (h.children_outside z fun hw => hz (hwithin' hw))
      content := fun x hx => ?content, textContent := ?textContent }
  case separate =>
    rw [Separate, Draft.children_bumpPages hd.keyed]
    exact (h.separate z (hwithin hz)).imp fun x y hxy => by
      rwa [Draft.isText_bumpPages hd.keyed, Draft.isText_bumpPages hd.keyed]
  case first =>
    have hmem : first ∈ d.tree.children z := by
      rw [h.children z (hwithin hz)]
      exact List.mem_filterMap.mpr ⟨first :: rest, hrun, rfl⟩
    rw [← h.first z first rest (hwithin hz) hrun]
    refine Draft.content?_bumpPages_of_not_page hd.keyed fun c hc => ?_
    obtain ⟨n, hn, rfl⟩ := Option.map_eq_some_iff.mp hc
    exact hwf.not_page_of_under (hwf.mem_children_iff.mp hmem) hn
  case rest =>
    obtain ⟨c, hc, hpage, hparent, hdocument⟩ :=
      inTrash_iff.mp (h.rest z first rest (hwithin hz) hrun x hx)
    refine inTrash_iff.mpr ⟨c, ?_, hpage, ?_, ?_⟩
    · rw [Draft.content?_bumpPages_of_not_page hd.keyed, hc]
      exact fun c' hc' => Option.some.inj (hc.symm.trans hc') ▸ hpage
    · rw [Draft.parent?_bumpPages hd.keyed, hparent]
    · rw [Draft.document?_bumpPages hd.keyed, hdocument]
  case content =>
    obtain ⟨version, hversion⟩ := h.content x fun z rest hz => hx z rest (hwithin' hz)
    obtain ⟨version', hversion'⟩ := Draft.content?_bumpPages hd.keyed x
    refine ⟨version', ?_⟩
    rw [hversion', hversion, Option.map_map]
    congr 1
    funext c
    simp [Content.withVersion]
  case textContent =>
    rw [← h.textContent]
    refine textContent_congr hwf (Draft.sound_bumpPages hd).toWellFormed
      (Draft.children_bumpPages hd.keyed) (Draft.isText_bumpPages hd.keyed) (fun x hx => ?_) root
    rw [isText_eq_of_content?] at hx
    rw [ownText_eq_of_content?, ownText_eq_of_content?,
      Draft.content?_bumpPages_of_not_page hd.keyed]
    intro c hc
    rw [hc] at hx
    exact Edit.isPage_of_isText hx

end Tree

namespace Session

variable {t : Tree} {e : Editor} {id : NodeId} {s : Session} {store : Store} {α : Type} {a : α}
  {edit : Edit α}

/-- A store whose transaction has been committed is closed, and refuses no commit. -/
theorem closed_of_run_eq_ok (ht : t.Sound) (hedit : edit.Composed)
    (hrun : run e edit ⟨t, store⟩ = (.ok a, s)) :
    s.store.staged = none ∧ s.store.refuseCommit = none := by
  cases hopen : store.staged with
  | some staged => simp [run, Store.begin, hopen] at hrun
  | none =>
    have hend := ending_run e store hedit ht hopen
    rw [hrun] at hend
    cases hend with
    | committed _ hrefuse => exact ⟨rfl, hrefuse⟩

/-- A transaction that does nothing leaves everything as it is, and counts as a commit. -/
theorem run_of_untouched (hclosed : store.staged = none) (hcommit : store.refuseCommit = none)
    (hrun : edit.run e (Draft.start t) = (.ok a, Draft.start t)) :
    run e edit ⟨t, store⟩ = (.ok a, ⟨t, { store with commits := store.commits + 1 }⟩) := by
  have htouched : (Draft.start t).touched = [] := by simp [Draft.touched, Draft.start]
  have hmerged : Store.merged store.committed ∅ = store.committed :=
    Std.ExtTreeMap.ext_getElem? fun id => by rw [Store.getElem?_merged]; simp
  unfold run
  simp only [Store.begin_of_closed hclosed, hrun, Draft.bumpPages_start, htouched,
    Draft.persistAll, Store.commit, hcommit, hmerged, Draft.tree_start]
  rw [← hclosed, ← hcommit]

/-- Joining all texts at and below a node, as an edit. -/
theorem settles_normalize (ht : t.Sound) (hc : t.Coherent) (hid : t.document? id ≠ none) :
    Edit.Settles e t id (t.Below · id) (fun t' => ∀ z, t'.Within z id → t'.Separate z)
      (Draft.start t) (Edit.normalize id) := by
  obtain ⟨n, hn⟩ : ∃ n, t.node? id = some n := by
    cases hn : t.node? id with
    | none => exact absurd (by rw [Tree.document?, hn]; rfl) hid
    | some n => exact ⟨n, rfl⟩
  obtain ⟨b, hb, -, hshows⟩ := ht.exists_branch hn
  obtain rfl := (ht.branch?_eq_some_iff.mp hb).1
  refine .of_run ?_ (Edit.settles_normalizeBranch ht.toWellFormed b (Draft.start t)
    ⟨ht, hc, .refl t⟩ hshows (.refl t b.id) hid)
  rw [Edit.normalize, Edit.run_bind, Edit.run_tree, Draft.tree_start]
  dsimp only
  rw [hb]

/-- Joining texts is run-merging.

When the texts at and below a node that belongs to a document have been joined, every run there has
been replaced by its first member, which says what the run has said, and nothing else is different.
Joining them again, whoever asks for it, succeeds and changes nothing. With a store that takes
everything, the transaction is refused only where a run of several texts stands below a node that
the principal could not write when it was its turn, or that takes part in a relation of shared
components while the policy is to reject such changes. -/
theorem normalization (ht : t.Sound) (hc : t.Coherent) (hid : t.document? id ≠ none) (e : Editor)
    (store : Store) :
    (∀ s, run e (Edit.normalize id) ⟨t, store⟩ = (.ok (), s) →
      t.RunsJoined s.tree id ∧ ∀ e', run e' (Edit.normalize id) s =
        (.ok (), { s with store := { s.store with commits := s.store.commits + 1 } })) ∧
    (store.Accepting → ∀ err, (run e (Edit.normalize id) ⟨t, store⟩).1 = .error err →
      ∃ z n, t.Within z id ∧ t.node? z = some n ∧ (∃ run ∈ t.runs z, 2 ≤ run.length) ∧
        ((∃ m, n.Dwindles m ∧ e.access.canWrite e.principal m = false ∧
            err = .tree (.denied z (.noWriteAccess e.principal.text))) ∨
          e.syncedParents = .reject ∧ t.isSynced z = true ∧ err = .tree (.denied z .synced))) := by
  obtain ⟨d, hd, hconfined, hend⟩ := settles_normalize (e := e) ht hc hid
  refine ⟨fun s hrun => ?_, fun hstore err herr => ?_⟩
  · obtain ⟨d', hok, -, hs⟩ := exists_run_of_run_eq_ok (.normalize id) ht hrun
    rcases hend with ⟨hrun', hsep⟩ | ⟨_, _, hrefused, -⟩
    · -- What the edit has done stands, but that the versions of pages are still to rise.
      obtain rfl : d = d' := (Prod.mk.inj (hrun'.symm.trans hok)).2
      have hjoined := (Tree.runsJoined_of_gathered hd.gathered ht.toWellFormed
        hd.sound.toWellFormed hd.coherent hconfined hsep).bumpPages hd.sound
      rw [← hs] at hjoined
      have hwf : s.tree.WellFormed := hs ▸ (Draft.sound_bumpPages hd.sound).toWellFormed
      obtain ⟨hclosed, hcommit⟩ := closed_of_run_eq_ok ht (.normalize id) hrun
      exact ⟨hjoined, fun e' => run_of_untouched hclosed hcommit
        (Edit.run_normalize_of_separate hwf hjoined.separate)⟩
    · exact nomatch (Prod.mk.inj (hrefused.symm.trans hok)).1
  · rcases hend with ⟨hrun', -⟩ | ⟨err', q, hrefused, hq, hrefuses⟩
    · -- The store takes everything.
      obtain ⟨a, ha⟩ := (exists_run_ok_iff (.normalize id) ht hstore).mpr
        ⟨(), congrArg Prod.fst hrun'⟩
      exact nomatch ha.symm.trans herr
    · obtain rfl : err = .tree err' := Except.error.inj (herr.symm.trans
        (run_refused (.normalize id) ht hstore.closed (congrArg Prod.fst hrefused)))
      obtain ⟨xs, first, second, ys, hlist, htext, htext'⟩ := hrefuses.adjacent
      have hfirst : d.tree.Under first q :=
        hd.sound.mem_children_iff.mp (by rw [hlist]; simp)
      obtain ⟨n, hn⟩ := ht.exists_parent (hd.gathered.under hfirst)
      obtain ⟨m, hm, hdwindles⟩ := hd.gathered.node q n hn
      refine ⟨q, n, hq.elim (fun heq => heq ▸ .refl) Tree.Below.within, hn,
        hd.gathered.exists_run hlist htext htext', hrefuses.cause.imp ?_ ?_⟩
      · rintro ⟨m', hm', hw, rfl⟩
        obtain rfl := Option.some.inj (hm.symm.trans hm')
        exact ⟨m, hdwindles hrefuses.document, hw, rfl⟩
      · rintro ⟨hpolicy, hsynced, rfl⟩
        rw [Tree.isSynced, hd.gathered.sharing] at hsynced
        exact ⟨hpolicy, hsynced, rfl⟩

/-- A page on which texts stand side by side, on two levels. -/
def scatteredTexts : Snapshot :=
  .mk (some 1) { kind := .page "home" 0 false } none
    [.mk (some 2) { kind := .text "one" none } none [],
      .mk (some 3) { kind := .text "two" none } none [],
      .mk (some 4) { kind := .element "p" ∅ } none
        [.mk (some 5) { kind := .text "three" none } none [],
          .mk (some 6) { kind := .text "four" none } none []]]

/-- The page in a tree. -/
def scattered : Tree := (({} : Tree).load scatteredTexts).2

theorem reachable_scattered : scattered.Reachable .successful :=
  .load .empty scatteredTexts ⟨1, by decide⟩

/-- What is left of it when its texts have been joined. -/
def rejoined : Session :=
  (run ⟨.anonymous, .unrestricted, .reject⟩ (Edit.normalize 1) ⟨scattered, {}⟩).2

/-- Texts are joined on both levels, a second time nothing happens, and without any grant the texts
remain where they are. -/
theorem normalization_scattered :
    rejoined.tree.children 1 = [2, 4] ∧ rejoined.tree.children 4 = [5] ∧
    rejoined.tree.content? 2 = some { kind := .text "onetwo" none } ∧
    rejoined.tree.inTrash 3 = true ∧
    (run ⟨.anonymous, .byGrants, .reject⟩ (Edit.normalize 1) rejoined).2.tree = rejoined.tree ∧
    ∃ z n m, scattered.Within z 1 ∧ scattered.node? z = some n ∧ n.Dwindles m ∧
      Access.byGrants.canWrite .anonymous m = false := by
  have hdocument : scattered.document? 1 ≠ none := by decide
  have h := normalization reachable_scattered.sound reachable_scattered.coherent hdocument
  obtain ⟨hjoined, hagain⟩ := (h ⟨.anonymous, .unrestricted, .reject⟩ {}).1 rejoined
    (Prod.ext (by decide) rfl)
  refine ⟨?_, ?_, ?_, ?_, ?_, ?_⟩
  · exact hjoined.children 1 .refl
  · exact hjoined.children 4 (.single (by unfold Tree.Under; decide))
  · exact hjoined.first 1 2 [3] .refl (by decide)
  · exact hjoined.rest 1 2 [3] .refl (by decide) 3 List.mem_cons_self
  · rw [hagain]
  · obtain ⟨z, n, hw, hn, -, ⟨m, hdwindles, hdenied, -⟩ | ⟨hpolicy, -⟩⟩ :=
      (h ⟨.anonymous, .byGrants, .allow⟩ {}).2 ⟨rfl, rfl, rfl⟩
        (.tree (.denied 1 (.noWriteAccess Principal.anonymous.text))) (by decide)
    · exact ⟨z, n, m, hw, hn, hdwindles, hdenied⟩
    · exact nomatch hpolicy

end Session

end ContentTree
