import ContentTree.Proofs.Tree.Gather

/-!
# Joining all runs

The children of a node are gone through from the first to the last. What remains to be done below a
child is done as soon as its run has ended, so that the children that follow are still as they were
in the beginning, and so is everything below them. What has been done below a child is not changed
any more by what is done with the others, as every step is confined to one list and to what stands
below it.

## Main definitions

* `Tree.Confined`: what a step leaves alone.
* `Edit.Refuses`: two texts side by side may not be joined.
* `Edit.Settles`: an edit gathers runs in a confined part of a tree, until it is refused.
* `Draft.Ready`: what holds whenever it is the turn of a child.

## Main results

* `Edit.settles_joinTexts`, `Edit.settles_joinRuns`, `Edit.settles_normalizeBranch`: two texts are
  joined, those of a list, and those of a branch.
* `Edit.run_normalizeBranch_of_separate`: where no two texts stand side by side, nothing is done.
-/

namespace ContentTree

open Relation

/-! ### Steps that are confined to a part of a tree -/

namespace Tree

variable {t t' t₁ t₂ t₃ : Tree} {p p' c c' x z first second : NodeId}
  {inside inside' : NodeId → Prop}

/-- What a step leaves alone that concerns the children of `p` and certain nodes: other lists, other
contents, and other documents. Besides, nothing comes below another node. -/
structure Confined (p : NodeId) (inside : NodeId → Prop) (t t' : Tree) : Prop where
  children : ∀ z, z ≠ p → ¬ inside z → t'.children z = t.children z
  content : ∀ x, ¬ inside x → t'.content? x = t.content? x
  document : ∀ x, ¬ inside x → t'.document? x = t.document? x
  under : ∀ {x y}, t'.Under x y → t.Under x y

namespace Confined

theorem refl (p : NodeId) (inside : NodeId → Prop) (t : Tree) : Confined p inside t t :=
  ⟨fun _ _ _ => rfl, fun _ _ => rfl, fun _ _ => rfl, fun h => h⟩

theorem trans (h : Confined p inside t₁ t₂) (h' : Confined p inside t₂ t₃) :
    Confined p inside t₁ t₃ where
  children z hz hin := (h'.children z hz hin).trans (h.children z hz hin)
  content x hin := (h'.content x hin).trans (h.content x hin)
  document x hin := (h'.document x hin).trans (h.document x hin)
  under hu := h.under (h'.under hu)

theorem mono (h : Confined p inside t t') (hp : p = p' ∨ inside' p)
    (hin : ∀ x, inside x → inside' x) : Confined p' inside' t t' where
  children z hz hout := h.children z
    (fun heq => hp.elim (fun hpp => hz (heq.trans hpp)) fun hi => hout (heq ▸ hi))
    fun hi => hout (hin z hi)
  content x hout := h.content x fun hi => hout (hin x hi)
  document x hout := h.document x fun hi => hout (hin x hi)
  under hu := h.under hu

theorem within (h : Confined p inside t t') (hw : t'.Within x z) : t.Within x z :=
  ReflTransGen.mono (fun _ _ hu => h.under hu) _ _ hw

/-- Where nothing has been joined and a step does nothing either, nothing has been joined. -/
theorem fresh (h : Confined p inside t₁ t₂) (hfresh : Fresh t t₁ c)
    (hout : ∀ z, t.Within z c → z ≠ p ∧ ¬ inside z) : Fresh t t₂ c where
  children z hz := (h.children z (hout z hz).1 (hout z hz).2).trans (hfresh.children z hz)
  content x hx := (h.content x (hout x hx.within).2).trans (hfresh.content x hx)

/-- The step that joins two texts. -/
theorem of_joinsInto (h : JoinsInto t₁ t₂ first second) (ht : t₁.WellFormed)
    (hsecond : t₁.Under second p) (hunder : ∀ {x y}, t₁.Under x y → t.Under x y) :
    Confined p (fun x => x = first ∨ t.Within x second) t₁ t₂ where
  children _ hz _ := h.children_of_ne ht hsecond hz
  content x hx := h.content_ne x fun heq => hx (.inl heq)
  document x hx := h.document_ne x fun hw =>
    hx (.inr (ReflTransGen.mono (fun _ _ hu => hunder hu) _ _ hw))
  under hu := ((h.under _ _).mp hu).2

end Confined

/-- Nothing stands within two siblings. -/
theorem WellFormed.not_within_sibling (h : t.WellFormed) (hc : t.Under c p) (hc' : t.Under c' p)
    (hne : c ≠ c') (hw : t.Within z c) : ¬ t.Within z c' :=
  fun hw' => hne (h.eq_of_within_siblings hc hc' hw hw')

/-- A parent does not stand within its children. -/
theorem WellFormed.ne_of_within_child (h : t.WellFormed) (hc : t.Under c p) (hw : t.Within z c) :
    z ≠ p := by
  rintro rfl
  exact h.acyclic z (TransGen.tail' hw hc)

end Tree

open ContentTree.Tree (Confined Fresh Gathered JoinsInto)

/-! ### Edits that gather runs -/

/-- A draft in which some texts have been joined since a tree was as given. -/
structure Draft.Underway (t : Tree) (d : Draft) : Prop where
  sound : d.tree.Sound
  coherent : d.tree.Coherent
  gathered : Gathered t d.tree

namespace Edit

variable {e : Editor} {t : Tree} {d d' : Draft} {p p' first second : NodeId}
  {inside inside' : NodeId → Prop} {post post' : Tree → Prop} {x : Edit Unit} {xs ys : List NodeId}

/-- Two texts stand side by side among the children of a node of a document, and may not be
joined. -/
structure Refuses (e : Editor) (t : Tree) (p : NodeId) (err : TreeError) : Prop where
  adjacent : ∃ xs first second ys, t.children p = xs ++ first :: second :: ys ∧
    t.isText first = true ∧ t.isText second = true
  document : t.document? p ≠ none
  cause : (∃ n, t.node? p = some n ∧ e.access.canWrite e.principal n = false ∧
      err = .denied p (.noWriteAccess e.principal.text)) ∨
    e.syncedParents = .reject ∧ t.isSynced p = true ∧ err = .denied p .synced

/-- An edit joins texts in a confined part of a tree and establishes what it should, unless it is
refused to join two of them. -/
def Settles (e : Editor) (t : Tree) (p : NodeId) (inside : NodeId → Prop) (post : Tree → Prop)
    (d : Draft) (x : Edit Unit) : Prop :=
  ∃ d', d'.Underway t ∧ Confined p inside d.tree d'.tree ∧
    (x.run e d = (.ok (), d') ∧ post d'.tree ∨
      ∃ err q, x.run e d = (.error err, d') ∧ (q = p ∨ inside q) ∧ Refuses e d'.tree q err)

namespace Settles

theorem of_run {y : Edit Unit} (hrun : x.run e d = y.run e d)
    (h : Settles e t p inside post d y) : Settles e t p inside post d x := by
  rwa [Settles, hrun]

theorem pure (hd : d.Underway t) (hpost : post d.tree) :
    Settles e t p inside post d (pure ()) :=
  ⟨d, hd, .refl p inside d.tree, .inl ⟨rfl, hpost⟩⟩

theorem bind {f : Unit → Edit Unit} (hx : Settles e t p inside post d x)
    (hf : ∀ d' : Draft, d'.Underway t → Confined p inside d.tree d'.tree → post d'.tree →
      Settles e t p inside post' d' (f ())) :
    Settles e t p inside post' d (x >>= f) := by
  obtain ⟨d₁, hd₁, hconfined, ⟨hrun, hpost⟩ | ⟨err, q, hrun, hq, hrefuses⟩⟩ := hx
  · obtain ⟨d₂, hd₂, hconfined', hend⟩ := hf d₁ hd₁ hconfined hpost
    refine ⟨d₂, hd₂, hconfined.trans hconfined', ?_⟩
    rwa [run_bind, hrun]
  · exact ⟨d₁, hd₁, hconfined, .inr ⟨err, q, by rw [run_bind, hrun], hq, hrefuses⟩⟩

theorem mono (h : Settles e t p inside post d x) (hp : p = p' ∨ inside' p)
    (hin : ∀ y, inside y → inside' y)
    (hpost : ∀ d' : Draft, d'.Underway t → Confined p inside d.tree d'.tree → post d'.tree →
      post' d'.tree) : Settles e t p' inside' post' d x := by
  obtain ⟨d', hd', hconfined, hend⟩ := h
  refine ⟨d', hd', hconfined.mono hp hin, hend.imp (fun ⟨hrun, hok⟩ =>
    ⟨hrun, hpost d' hd' hconfined hok⟩) ?_⟩
  rintro ⟨err, q, hrun, hq, hrefuses⟩
  refine ⟨err, q, hrun, ?_, hrefuses⟩
  rcases hq with rfl | hq
  · exact hp
  · exact .inr (hin q hq)

end Settles

/-! ### Two texts -/

/-- Two texts that exist are joined, or the parent forbids it. -/
theorem run_joinTexts {head tail parent : Node} (hhead : d.tree.node? first = some head)
    (htail : d.tree.node? second = some tail) (hparent : d.tree.node? p = some parent)
    (htext : head.kind.isText = true) (htext' : tail.kind.isText = true) :
    (joinTexts p first second).run e d = (.ok (), d.join first second head) ∨
      ∃ err, (joinTexts p first second).run e d = (.error err, d) ∧
        (e.access.canWrite e.principal parent = false ∧
            err = .denied p (.noWriteAccess e.principal.text) ∨
          e.syncedParents = .reject ∧ d.tree.isSynced p = true ∧ err = .denied p .synced) := by
  unfold joinTexts
  rw [run_bind, run_check, Tree.require_eq_ok.mpr hhead, Tree.require_eq_ok.mpr htail]
  cases hw : e.access.canWrite e.principal parent with
  | false =>
    rw [Editor.mayWrite_of_not_canWrite hparent hw]
    exact .inr ⟨_, rfl, .inl ⟨rfl, rfl⟩⟩
  | true =>
    have hmay : e.mayWrite d.tree p = .ok () := Editor.mayWrite_eq_ok.mpr ⟨parent, hparent, hw⟩
    rw [hmay]
    by_cases hsynced : e.syncedParents = .allow ∨ d.tree.isSynced p = false
    · have hkeeps : e.keepsSynced d.tree p = .ok () := by
        simp [Editor.keepsSynced, hsynced]
      rw [hkeeps]
      refine .inl ?_
      obtain ⟨content, contentType, hk⟩ : ∃ content contentType,
          head.kind = .text content contentType := by
        cases hk : head.kind <;> simp_all [Kind.isText]
      obtain ⟨content', contentType', hk'⟩ : ∃ content contentType,
          tail.kind = .text content contentType := by
        cases hk : tail.kind <;> simp_all [Kind.isText]
      simp only [bind, Except.bind, hk, hk', Draft.join, Draft.lengthen, Tree.ownText_eq hhead,
        Tree.ownText_eq htail, Content.withText]
      rfl
    · have hkeeps : e.keepsSynced d.tree p = .error (.denied p .synced) := by
        simp [Editor.keepsSynced, hsynced]
      rw [not_or, Bool.not_eq_false] at hsynced
      rw [hkeeps]
      refine .inr ⟨_, rfl, .inr ⟨?_, hsynced.2, rfl⟩⟩
      cases hpolicy : e.syncedParents with
      | reject => rfl
      | allow => exact absurd hpolicy hsynced.1

/-- Joining two texts more, the second of which has been left alone so far. -/
theorem settles_joinTexts (hd : d.Underway t)
    (hlist : d.tree.children p = xs ++ first :: second :: ys)
    (hdocument : d.tree.document? p ≠ none) (htext : t.isText first = true)
    (htext' : t.isText second = true) (hcontent : d.tree.content? second = t.content? second)
    (hfresh : Fresh t d.tree second) :
    Settles e t p (fun x => x = first ∨ t.Within x second)
      (fun t' => JoinsInto d.tree t' first second) d (joinTexts p first second) := by
  have hwf := hd.sound.toWellFormed
  have hfirst : d.tree.Under first p := hwf.mem_children_iff.mp (by rw [hlist]; simp)
  have hsecond : d.tree.Under second p := hwf.mem_children_iff.mp (by rw [hlist]; simp)
  obtain ⟨head, hhead, -⟩ := hfirst.exists_node
  obtain ⟨tail, htail, -⟩ := hsecond.exists_node
  obtain ⟨parent, hparent⟩ := hwf.exists_parent hfirst
  have hk := htext
  rw [← hd.gathered.isText, Tree.isText_eq hhead] at hk
  have hk' := htext'
  rw [← hd.gathered.isText, Tree.isText_eq htail] at hk'
  rcases run_joinTexts (e := e) hhead htail hparent hk hk' with hrun | ⟨err, hrun, hcause⟩
  · have hinto := Draft.joinsInto_join hhead htail hk' hd.sound
    exact ⟨_, ⟨Draft.sound_join hhead hd.sound,
      Draft.coherent_join hhead htail hk' hd.sound hd.coherent,
      hd.gathered.join hwf hinto hlist hdocument htext htext' hcontent hfresh⟩,
      .of_joinsInto hinto hwf hsecond hd.gathered.under, .inl ⟨hrun, hinto⟩⟩
  · have hadjacent : ∃ xs first second ys, d.tree.children p = xs ++ first :: second :: ys ∧
        d.tree.isText first = true ∧ d.tree.isText second = true :=
      ⟨xs, first, second, ys, hlist, by rw [hd.gathered.isText, htext],
        by rw [hd.gathered.isText, htext']⟩
    exact ⟨d, hd, .refl _ _ _, .inr ⟨err, p, hrun, .inl rfl, hadjacent, hdocument,
      hcause.imp_left fun ⟨hw, heq⟩ => ⟨parent, hparent, hw, heq⟩⟩⟩

end Edit

/-! ### The turn of a child -/

open Edit (Sibling)

/-- What holds whenever it is the turn of the child `current`: the children after it are as they
were, and so is everything below it and below them. -/
structure Draft.Ready (t : Tree) (p : NodeId) (before : List NodeId) (current : Sibling)
    (rest : List Sibling) (d : Draft) : Prop where
  underway : d.Underway t
  document : d.tree.document? p ≠ none
  children : d.tree.children p = before ++ current.id :: rest.map Sibling.id
  texts : ∀ s ∈ current :: rest, s.isText = t.isText s.id
  fresh : ∀ s ∈ current :: rest, Fresh t d.tree s.id
  content : ∀ s ∈ rest, d.tree.content? s.id = t.content? s.id

namespace Draft.Ready

variable {t : Tree} {d d' : Draft} {p : NodeId} {before : List NodeId} {current next s : Sibling}
  {rest : List Sibling}

theorem under (h : Ready t p before current rest d) (hs : s ∈ current :: rest) :
    d.tree.Under s.id p := by
  rw [← h.underway.sound.mem_children_iff, h.children]
  exact List.mem_append_right _ (List.mem_map_of_mem hs)

theorem nodup (h : Ready t p before current rest d) :
    (current.id :: rest.map Sibling.id).Nodup :=
  (List.nodup_append'.mp (h.children ▸ h.underway.sound.nodup_children p)).2.1

/-- Neither the child nor anything below it stands within the children that follow. -/
theorem not_within (h : Ready t p before current rest d) (ht : t.WellFormed) (hs : s ∈ rest)
    {z : NodeId} (hw : t.Within z s.id) : ¬ t.Within z current.id := by
  refine ht.not_within_sibling (h.underway.gathered.under (h.under (List.mem_cons_of_mem _ hs)))
    (h.underway.gathered.under (h.under List.mem_cons_self)) ?_ hw
  rintro heq
  exact (List.nodup_cons.mp h.nodup).1 (heq ▸ List.mem_map_of_mem hs)

/-- The next text has been joined to the child. -/
theorem join (h : Ready t p before current (next :: rest) d) (ht : t.WellFormed)
    (hd' : d'.Underway t) (hj : JoinsInto d.tree d'.tree current.id next.id) :
    Ready t p before current rest d' := by
  have hnext := h.under (s := next) (by simp)
  have hsub : current :: rest ⊆ current :: next :: rest :=
    List.cons_subset_cons current (List.subset_cons_self next rest)
  have hnodup := h.nodup
  rw [List.map_cons] at hnodup
  have hcurrent : current.id ∉ next.id :: rest.map Sibling.id := (List.nodup_cons.mp hnodup).1
  refine ⟨hd', ?_, ?_, fun s hs => h.texts s (hsub hs),
    fun s hs => ⟨fun z hz => ?_, fun x hx => ?_⟩, fun s hs => ?_⟩
  · rw [hj.document_ne p fun hw => h.underway.sound.ne_of_within_child hnext hw rfl]
    exact h.document
  · have hbefore : next.id ∉ before ++ [current.id] := by
      have hall := h.underway.sound.nodup_children p
      rw [h.children, List.map_cons, List.append_cons] at hall
      exact fun hmem => (List.nodup_append'.mp hall).2.2 hmem List.mem_cons_self
    rw [hj.children, h.children, List.map_cons, List.append_cons, List.erase_append_right _ hbefore,
      List.erase_cons_head, List.append_assoc]
    rfl
  · have hs' := h.underway.gathered.under (h.under (hsub hs))
    rw [hj.children_of_ne h.underway.sound.toWellFormed hnext (ht.ne_of_within_child hs' hz)]
    exact (h.fresh s (hsub hs)).children z hz
  · rw [hj.content_ne x ?_]
    · exact (h.fresh s (hsub hs)).content x hx
    · -- Two siblings do not stand below each other.
      rintro rfl
      have hs' := h.underway.gathered.under (h.under (hsub hs))
      have hcurrent' := h.underway.gathered.under (h.under (List.mem_cons_self))
      exact ht.ne_of_within_child hs' (hx.of_under hcurrent') rfl
  · rw [hj.content_ne s.id ?_]
    · exact h.content s (List.mem_cons_of_mem _ hs)
    · rintro heq
      exact hcurrent (List.mem_cons_of_mem _ (heq ▸ List.mem_map_of_mem hs))

/-- What remained to be done below the child has been done. -/
theorem turn (h : Ready t p before current (next :: rest) d) (ht : t.WellFormed)
    (hd' : d'.Underway t)
    (hconfined : Confined current.id (t.Below · current.id) d.tree d'.tree) :
    Ready t p (before ++ [current.id]) next rest d' := by
  have hcurrent := h.underway.gathered.under (h.under List.mem_cons_self)
  have hout : ¬ t.Within p current.id := fun hw => ht.ne_of_within_child hcurrent hw rfl
  refine ⟨hd', ?_, ?_, fun s hs => h.texts s (List.mem_cons_of_mem _ hs), fun s hs => ?_,
    fun s hs => ?_⟩
  · rw [hconfined.document p fun hb => hout hb.within]
    exact h.document
  · rw [hconfined.children p (fun heq => hout (heq ▸ .refl)) fun hb => hout hb.within, h.children,
      List.map_cons, List.append_cons]
  · refine hconfined.fresh (h.fresh s (List.mem_cons_of_mem _ hs)) fun z hz => ?_
    have hz' := h.not_within ht hs hz
    exact ⟨fun heq => hz' (heq ▸ .refl), fun hb => hz' hb.within⟩
  · rw [hconfined.content s.id fun hb =>
      h.not_within ht (List.mem_cons_of_mem _ hs) .refl hb.within]
    exact h.content s (List.mem_cons_of_mem _ hs)

end Draft.Ready

/-! ### All texts in a list and below it -/

/-- What has become of a list of children from one of them on: no two texts stand side by side, nor
do they below any of the children that are left. -/
def Tree.Parted (t : Tree) (p : NodeId) (before : List NodeId) (current : NodeId) (t' : Tree) :
    Prop :=
  ∃ kept, t'.children p = before ++ current :: kept ∧
    (current :: kept).IsChain (fun x y => ¬ (t.isText x = true ∧ t.isText y = true)) ∧
    ∀ c ∈ current :: kept, ∀ z, t'.Within z c → t'.Separate z

namespace Edit

variable {e : Editor} {t : Tree} {d d' : Draft} {p : NodeId} {n : Node} {cs : List Branch}

/-- The child at the root of a branch, and what remains to be done below it. -/
def sibling (c : Branch) : Sibling := ⟨c.id, c.node.kind.isText, normalizeBranch c⟩

theorem exists_of_mem_siblings {c : Branch} {s : Sibling}
    (hs : s ∈ sibling c :: cs.map sibling) : ∃ c' ∈ c :: cs, sibling c' = s :=
  List.mem_map.mp (show s ∈ (c :: cs).map sibling from hs)

/-- A child and everything below it has been done with where no two texts stand side by side below
it. -/
def Inner (e : Editor) (t : Tree) (s : Sibling) : Prop :=
  ∀ d : Draft, d.Underway t → Fresh t d.tree s.id → d.tree.document? s.id ≠ none →
    Settles e t s.id (t.Below · s.id) (fun t' => ∀ z, t'.Within z s.id → t'.Separate z) d s.inner

/-- Where nothing has been changed, what was separate is still so. -/
theorem separate_of_confined {inside : NodeId → Prop} {z : NodeId} (hd : d.Underway t)
    (hd' : d'.Underway t) (h : Confined p inside d.tree d'.tree) (hp : z ≠ p) (hout : ¬ inside z)
    (hz : d.tree.Separate z) : d'.tree.Separate z := by
  rw [Tree.Separate, h.children z hp hout]
  refine List.IsChain.imp (fun x y hxy => ?_) hz
  rwa [hd'.gathered.isText, hd'.gathered.isText, ← hd.gathered.isText, ← hd.gathered.isText]

/-- The runs of a list are joined from one child on. -/
theorem settles_joinRuns (ht : t.WellFormed) (rest : List Sibling) :
    ∀ current before d, Draft.Ready t p before current rest d →
      (∀ s ∈ current :: rest, Inner e t s) →
      Settles e t p (fun x => ∃ s ∈ current :: rest, t.Within x s.id)
        (t.Parted p before current.id) d (joinRuns p current rest) := by
  -- On the children that follow; `Ready` is what holds at the turn of each child.
  induction rest with
  | nil =>
    intro current before d h hinner
    have hcurrent := h.under List.mem_cons_self
    have hdocument : d.tree.document? current.id ≠ none :=
      h.underway.coherent.document_eq hcurrent ▸ h.document
    have hout : ¬ t.Within p current.id := fun hw =>
      ht.ne_of_within_child (h.underway.gathered.under hcurrent) hw rfl
    refine (hinner current List.mem_cons_self d h.underway (h.fresh current List.mem_cons_self)
      hdocument).mono (.inr ⟨current, List.mem_cons_self, .refl⟩)
      (fun x hx => ⟨current, List.mem_cons_self, hx.within⟩) fun d' _ hconfined hsep => ?_
    refine ⟨[], ?_, .singleton _, fun c hc => List.mem_singleton.mp hc ▸ hsep⟩
    rw [hconfined.children p (fun heq => hout (heq ▸ .refl)) fun hb => hout hb.within, h.children,
      List.map_nil]
  | cons next rest ih =>
    intro current before d h hinner
    have hflags : current.isText = t.isText current.id ∧ next.isText = t.isText next.id :=
      ⟨h.texts current (by simp), h.texts next (by simp)⟩
    rw [joinRuns]
    split
    · next htexts =>
      -- The next text is taken over, and it is still the turn of the same child.
      rw [Bool.and_eq_true, hflags.1, hflags.2] at htexts
      have hsub : current :: rest ⊆ current :: next :: rest :=
        List.cons_subset_cons current (List.subset_cons_self next rest)
      have hstep : Settles e t p (fun x => ∃ s ∈ current :: next :: rest, t.Within x s.id)
          (fun t' => JoinsInto d.tree t' current.id next.id) d
          (joinTexts p current.id next.id) := by
        refine (settles_joinTexts h.underway h.children h.document htexts.1 htexts.2
          (h.content next List.mem_cons_self) (h.fresh next (by simp))).mono (.inl rfl) ?_
          fun _ _ _ hj => hj
        rintro x (rfl | hx)
        · exact ⟨current, List.mem_cons_self, .refl⟩
        · exact ⟨next, by simp, hx⟩
      refine hstep.bind fun d' hd' _ hj => ?_
      refine (ih current before d' (h.join ht hd' hj) fun s hs => hinner s (hsub hs)).mono
        (.inl rfl) ?_ fun _ _ _ hparted => hparted
      rintro x ⟨s, hs, hx⟩
      exact ⟨s, hsub hs, hx⟩
    · next htexts =>
      -- The run has ended. What stands below the child is done, and it is the turn of the next one.
      have hcurrent := h.under List.mem_cons_self
      have hdocument : d.tree.document? current.id ≠ none :=
        h.underway.coherent.document_eq hcurrent ▸ h.document
      have hstep : Settles e t p (fun x => ∃ s ∈ current :: next :: rest, t.Within x s.id)
          (fun t' => Confined current.id (t.Below · current.id) d.tree t' ∧
            ∀ z, t'.Within z current.id → t'.Separate z) d current.inner :=
        (hinner current List.mem_cons_self d h.underway (h.fresh current List.mem_cons_self)
          hdocument).mono (.inr ⟨current, List.mem_cons_self, .refl⟩)
          (fun x hx => ⟨current, List.mem_cons_self, hx.within⟩)
          fun _ _ hconfined hsep => ⟨hconfined, hsep⟩
      refine hstep.bind fun d₁ hd₁ _ hdone => ?_
      have hready := h.turn ht hd₁ hdone.1
      refine (ih next (before ++ [current.id]) d₁ hready fun s hs =>
        hinner s (List.mem_cons_of_mem _ hs)).mono (.inl rfl) ?_ ?_
      · rintro x ⟨s, hs, hx⟩
        exact ⟨s, List.mem_cons_of_mem _ hs, hx⟩
      rintro d₂ hd₂ hconfined ⟨kept, hlist, hchain, hsep⟩
      refine ⟨next.id :: kept, by rw [hlist, ← List.append_cons], ?_,
        fun c hc z hz => ?_⟩
      · refine List.isChain_cons_cons.mpr ⟨fun hboth => htexts ?_, hchain⟩
        rw [hflags.1, hflags.2, hboth.1, hboth.2]
        rfl
      rcases List.mem_cons.mp hc with rfl | hc
      · -- What has been done below the child is left alone afterwards.
        have hz₁ := hconfined.within hz
        have hz' := hd₁.gathered.within hz₁
        refine separate_of_confined hd₁ hd₂ hconfined
          (ht.ne_of_within_child (h.underway.gathered.under hcurrent) hz') ?_ (hdone.2 z hz₁)
        rintro ⟨s, hs, hzs⟩
        exact h.not_within ht hs hzs hz'
      · exact hsep c hc z hz

/-- The runs of a branch are joined. -/
theorem settles_normalizeBranch (ht : t.WellFormed) (b : Branch) :
    ∀ d : Draft, d.Underway t → b.Shows t → Fresh t d.tree b.id → d.tree.document? b.id ≠ none →
      Settles e t b.id (t.Below · b.id) (fun t' => ∀ z, t'.Within z b.id → t'.Separate z) d
        (normalizeBranch b) := by
  induction b with
  | mk n cs ih =>
    intro d hd hb hfresh hdocument
    have hid : Branch.id ⟨n, cs⟩ = n.id := rfl
    rw [hid] at hfresh hdocument ⊢
    have hunder : ∀ c ∈ cs, t.Under c.id n.id := fun c hc => hb.under_of_mem_children ht hc
    have hlist : d.tree.children n.id = cs.map Branch.id :=
      (hfresh.children n.id .refl).trans hb.children
    have hrun : (normalizeBranch ⟨n, cs⟩).run e d =
        (joinChildren n.id (normalizeBranch.siblings cs)).run e d := by
      rw [normalizeBranch, run_bind, run_tree]
      dsimp only
      rw [if_pos (Option.isSome_iff_ne_none.mpr hdocument)]
    rw [siblings_eq] at hrun
    refine .of_run hrun ?_
    cases cs with
    | nil =>
      refine .pure hd fun z hz => ?_
      -- There is nothing below a node without children.
      obtain rfl : z = n.id := by
        rcases hz.eq_or_below with rfl | hb
        · rfl
        · obtain ⟨c, -, hc⟩ := TransGen.tail'_iff.mp hb
          rw [← hd.sound.mem_children_iff, hlist] at hc
          exact absurd hc List.not_mem_nil
      rw [Tree.Separate, hlist]
      exact .nil
    | cons c cs =>
      have hready : Draft.Ready t n.id [] (sibling c) (cs.map sibling) d := by
        refine ⟨hd, hdocument, by rw [hlist, List.map_map]; rfl, fun s hs => ?_, fun s hs => ?_,
          fun s hs => ?_⟩
        · obtain ⟨c', hc', rfl⟩ := exists_of_mem_siblings hs
          exact (Tree.isText_eq (hb.of_mem_children hc').node?).symm
        · obtain ⟨c', hc', rfl⟩ := exists_of_mem_siblings hs
          exact ⟨fun z hz => hfresh.children z (hz.tail (hunder c' hc')),
            fun x hx => hfresh.content x (hx.tail (hunder c' hc'))⟩
        · obtain ⟨c', hc', rfl⟩ := List.mem_map.mp hs
          exact hfresh.content c'.id (.single (hunder c' (List.mem_cons_of_mem _ hc')))
      refine (settles_joinRuns ht _ _ [] d hready fun s hs => ?_).mono (.inl rfl) ?_ ?_
      · obtain ⟨c', hc', rfl⟩ := exists_of_mem_siblings hs
        exact fun d₁ hd₁ hfresh₁ hdocument₁ =>
          ih c' hc' d₁ hd₁ (hb.of_mem_children hc') hfresh₁ hdocument₁
      · rintro x ⟨s, hs, hx⟩
        obtain ⟨c', hc', rfl⟩ := exists_of_mem_siblings hs
        exact TransGen.tail' hx (hunder c' hc')
      · rintro d' hd' - ⟨kept, hkept, hchain, hsep⟩ z hz
        rw [List.nil_append] at hkept
        rcases hz.eq_or_below with rfl | hbelow
        · rw [Tree.Separate, hkept]
          exact hchain.imp fun x y hxy => by rwa [hd'.gathered.isText, hd'.gathered.isText]
        · obtain ⟨c', hw, hc'⟩ := TransGen.tail'_iff.mp hbelow
          exact hsep c' (hkept ▸ hd'.sound.mem_children_iff.mpr hc') z hw

/-! ### Nothing left to be done -/

theorem run_joinRuns_of_separate {rest : List Sibling} : ∀ {current : Sibling},
    (∀ s ∈ current :: rest, s.inner.run e d = (.ok (), d)) →
    (current :: rest).IsChain (fun s s' => ¬ (s.isText = true ∧ s'.isText = true)) →
    (joinRuns p current rest).run e d = (.ok (), d) := by
  induction rest with
  | nil => exact fun hinner _ => hinner _ List.mem_cons_self
  | cons next rest ih =>
    intro current hinner hchain
    obtain ⟨hhead, hchain⟩ := List.isChain_cons_cons.mp hchain
    rw [joinRuns, if_neg (by simpa using hhead), run_bind, hinner current List.mem_cons_self]
    exact ih (fun s hs => hinner s (List.mem_cons_of_mem _ hs)) hchain

/-- Where no two texts stand side by side, nothing is done. -/
theorem run_normalizeBranch_of_separate (b : Branch) (hb : b.Shows d.tree)
    (hd : d.tree.WellFormed) (hsep : ∀ z, d.tree.Within z b.id → d.tree.Separate z) :
    (normalizeBranch b).run e d = (.ok (), d) := by
  induction b with
  | mk n cs ih =>
    rw [normalizeBranch, run_bind, run_tree]
    dsimp only
    split
    · rw [siblings_eq]
      have hinner : ∀ c ∈ cs, (normalizeBranch c).run e d = (.ok (), d) := fun c hc =>
        ih c hc (hb.of_mem_children hc) fun z hz =>
          hsep z (hz.tail (hb.under_of_mem_children hd hc))
      have hchain : cs.IsChain fun c c' =>
          ¬ (c.node.kind.isText = true ∧ c'.node.kind.isText = true) := by
        have hroot := hsep n.id .refl
        rw [Tree.Separate, show n.id = Branch.id ⟨n, cs⟩ from rfl, hb.children,
          List.isChain_map] at hroot
        refine hroot.imp_of_mem_imp fun c c' hc hc' hcc' => ?_
        rwa [Tree.isText_eq (hb.of_mem_children hc).node?,
          Tree.isText_eq (hb.of_mem_children hc').node?] at hcc'
      cases cs with
      | nil => rfl
      | cons c cs =>
        refine run_joinRuns_of_separate (fun s hs => ?_)
          ((List.isChain_map sibling (l := c :: cs)).mpr hchain)
        obtain ⟨c', hc', rfl⟩ := exists_of_mem_siblings hs
        exact hinner c' hc'
    · rfl

theorem run_normalize_of_separate {id : NodeId} (hd : d.tree.WellFormed)
    (hsep : ∀ z, d.tree.Within z id → d.tree.Separate z) :
    (normalize id).run e d = (.ok (), d) := by
  rw [normalize, run_bind, run_tree]
  dsimp only
  split
  · next b hb =>
    obtain ⟨rfl, hshows⟩ := hd.branch?_eq_some_iff.mp hb
    exact run_normalizeBranch_of_separate b hshows hd hsep
  · rfl

end Edit

end ContentTree
