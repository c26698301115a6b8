import ContentTree.Proofs.Draft.Journal

/-!
# Versions of pages

No operation writes the version of a page that is there: another content leaves it alone, and
copies are new pages. Versions go up only at the end of a transaction, by one for each page that a
touched node counts for. That the touched nodes are collected as a set, and their pages too, is what
keeps a page from going up twice.

## Main definitions

* `Tree.version?`: the version of a page.
* `Tree.CountsFor`: a node counts for a page.
* `Tree.Advanced`: what has become of the versions of a tree in another.

## Main results

* `Changes.version?_eq`: changes keep the versions.
* `rewritten_bumpPages`: the pages that touched nodes count for go up by one, and nothing else
  changes.
* `Changes.advanced`: every node that differs has raised the versions of the pages it counts for.
-/

namespace ContentTree

open Relation

namespace Tree

variable {t t' : Tree} {id page : NodeId} {n : Node} {version : Nat}

/-- The version of a page. -/
def version? (t : Tree) (page : NodeId) : Option Nat :=
  (t.node? page).bind (·.kind.version?)

/-- A node counts for the page that encloses it, or else for those that enclose its mirrors. -/
def CountsFor (t : Tree) (id page : NodeId) : Prop :=
  t.closestPage? id = some page ∨
    t.closestPage? id = none ∧ ∃ mirror ∈ t.sharing.mirrorsOf id, t.closestPage? mirror = some page

/-- What has become of the versions of a tree in another. A page has the version it had, or the
next one, and it has the next one where a node that is new or differs counts for it. -/
structure Advanced (t t' : Tree) : Prop where
  once : ∀ {page version}, t.version? page = some version →
    t'.version? page = some version ∨ t'.version? page = some (version + 1)
  raised : ∀ {page version id}, t.version? page = some version → t'.node? id ≠ t.node? id →
    t'.CountsFor id page → t'.version? page = some (version + 1)

theorem version?_eq (h : t.node? page = some n) : t.version? page = n.kind.version? := by
  rw [version?, h, Option.bind_some]

/-- A page is enclosed by itself. -/
theorem closestPage?_of_page (hn : t.node? id = some n) (hpage : n.kind.isPage = true) :
    t.closestPage? id = some id := by
  simp [closestPage?, closest?, hn, hpage]

theorem CountsFor.eq_of_page (h : t.CountsFor id page) (hn : t.node? id = some n)
    (hpage : n.kind.isPage = true) : page = id := by
  rw [CountsFor, closestPage?_of_page hn hpage] at h
  rcases h with h | ⟨h, -⟩
  · exact (Option.some.inj h).symm
  · exact nomatch h

theorem CountsFor.congr (h : t'.CountsFor id page)
    (hclosest : ∀ id, t'.closestPage? id = t.closestPage? id) (hsharing : t'.sharing = t.sharing) :
    t.CountsFor id page := by
  simpa only [CountsFor, hclosest, hsharing] using h

end Tree

/-! ### Operations -/

/-- A content that has the version of another, if that has one. -/
abbrev Content.SameVersion (c c' : Content) : Prop :=
  ∀ version, c.kind.version? = some version → c'.kind.version? = some version

instance : Content.Steady Content.SameVersion where
  refl _ _ h := h
  trans h h' version hv := h' version (h version hv)
  recast := by
    intro n content hkind version hv
    -- Whatever has a version is a page, and pages are given contents of pages only.
    have hpage : content.kind.isPage = true :=
      (Kind.isPage_eq_of_same hkind).trans (Kind.isPage_of_version? hv)
    change (Draft.recast content n).kind.version? = some version
    rw [Draft.recast, hv]
    exact Kind.version?_withVersion hpage _

namespace Draft

open ContentTree.Tree (Rewritten)

variable {t : Tree} {d d' : Draft} {e : Editor} {id page : NodeId} {version : Nat}

/-- Changes keep the versions of all pages. -/
theorem Changes.version?_eq (hc : Changes e d d') (h : d.tree.Sound)
    (hv : d.tree.version? page = some version) : d'.tree.version? page = some version := by
  obtain ⟨n, hn, hv⟩ := Option.bind_eq_some_iff.mp hv
  have hkeep : Tree.Keeps Content.SameVersion d.tree d'.tree := hc.keeps h
  obtain ⟨m, hm, hsame⟩ := hkeep hn
  rw [Tree.version?_eq hm]
  exact hsame version hv

/-! ### The pages that go up -/

theorem mem_foldl_insert (xs : List NodeId) : ∀ s : Std.ExtTreeSet NodeId,
    page ∈ xs.foldl (·.insert ·) s ↔ page ∈ s ∨ page ∈ xs := by
  induction xs with
  | nil => simp
  | cons x xs ih =>
    intro s
    rw [List.foldl_cons, ih, Std.ExtTreeSet.mem_insert, Std.compare_eq_iff_eq, List.mem_cons,
      eq_comm (a := x), or_assoc, or_left_comm]

theorem mem_pagesOf : page ∈ pagesOf t id ↔ t.contains id = true ∧ t.CountsFor id page := by
  unfold pagesOf Tree.CountsFor
  split
  · next hid =>
    cases t.closestPage? id <;> simp [hid, eq_comm (a := page)]
  · next hid => simp [hid]

/-- The versions of those pages go up for which a touched node counts. -/
theorem mem_touchedPages : page ∈ d.touchedPages ↔
    ∃ id ∈ d.touched, d.tree.contains id = true ∧ d.tree.CountsFor id page := by
  simp only [touchedPages, mem_foldl_insert, Std.ExtTreeSet.not_mem_empty, false_or,
    List.mem_flatMap, mem_pagesOf]

/-- A node of the next version, if it is one of the given pages. -/
def advance (pages : List NodeId) (n : Node) : Node :=
  if n.id ∈ pages then bumped n else n

theorem place_advance (pages : List NodeId) (n : Node) : (advance pages n).place = n.place := by
  unfold advance
  split
  · exact place_bumped n
  · rfl

theorem owningPage_advance (pages : List NodeId) (n : Node) :
    (advance pages n).owningPage = n.owningPage := by
  unfold advance
  split
  · exact owningPage_bumped n
  · rfl

theorem rewritten_foldl_bump (pages : List NodeId) : ∀ d : Draft, d.tree.Keyed → pages.Nodup →
    Rewritten (advance pages) d.tree (pages.foldl bumpVersion d).tree := by
  induction pages with
  | nil =>
    intro d _ _
    exact (Rewritten.refl _).congr fun _ _ _ => by simp [advance]
  | cons page pages ih =>
    intro d hk hnodup
    obtain ⟨hpage, hnodup⟩ := List.nodup_cons.mp hnodup
    have hhead := rewritten_bumpVersion hk page
    have htail := ih _ (hhead.keyed hk (at_id bumped_id)) hnodup
    refine (hhead.trans htail).congr fun id n _ => ?_
    by_cases hid : n.id = page
    · -- The first page is not among the rest, so that it goes up once.
      simp [at_, advance, hid, bumped_id, hpage]
    · simp [at_, advance, hid]

/-- The pages that touched nodes count for go up by one, and nothing else changes. -/
theorem rewritten_bumpPages (h : d.tree.Keyed) :
    Rewritten (advance d.touchedPages.toList) d.tree d.bumpPages.tree := by
  refine rewritten_foldl_bump _ d h ?_
  exact Std.ExtTreeSet.distinct_toList.imp fun hne heq => hne (Std.compare_eq_iff_eq.mpr heq)

/-- Higher versions leave the places and the documents of all nodes as they are. -/
theorem parent?_bumpPages (h : d.tree.Keyed) (id : NodeId) :
    d.bumpPages.tree.parent? id = d.tree.parent? id :=
  (rewritten_bumpPages h).parent?_eq (fun _ n _ => place_advance _ n) id

theorem children_bumpPages (h : d.tree.Keyed) (id : NodeId) :
    d.bumpPages.tree.children id = d.tree.children id :=
  (rewritten_bumpPages h).children_eq (fun _ n _ => place_advance _ n) id

theorem document?_bumpPages (h : d.tree.Keyed) (id : NodeId) :
    d.bumpPages.tree.document? id = d.tree.document? id :=
  (rewritten_bumpPages h).document? (owningPage_advance _) id

theorem countsFor_of_bumpPages (h : d.tree.Keyed) (hc : d.bumpPages.tree.CountsFor id page) :
    d.tree.CountsFor id page := by
  have hg := rewritten_bumpPages h
  -- A higher version moves no node and changes no document or link.
  refine hc.congr (hg.closestPage?_eq ?_ (owningPage_advance _)) hg.sharing
  exact fun _ n _ => place_advance _ n

theorem version?_bumped {n : Node} (hv : n.kind.version? = some version) :
    (bumped n).kind.version? = some (version + 1) := by
  unfold bumped
  rw [hv]
  exact Kind.version?_withVersion (Kind.isPage_of_version? hv) _

theorem version?_bumpPages (h : d.tree.Keyed) (hv : d.tree.version? page = some version) :
    d.bumpPages.tree.version? page =
      some (if page ∈ d.touchedPages then version + 1 else version) := by
  obtain ⟨n, hn, hv⟩ := Option.bind_eq_some_iff.mp hv
  rw [Tree.version?_eq ((rewritten_bumpPages h).node?_of_some hn), advance, h hn]
  simp only [Std.ExtTreeSet.mem_toList]
  split
  · exact version?_bumped hv
  · exact hv

/-- Every node that differs in the end counts for pages that go up. If it was not touched, it has
become different because it is such a page. -/
theorem Changes.mem_touchedPages (hc : (start t).Changes e d) (h : t.Sound)
    (hne : d.bumpPages.tree.node? id ≠ t.node? id) (hpage : d.bumpPages.tree.CountsFor id page) :
    page ∈ d.touchedPages := by
  have hsound := hc.sound h
  have hg := rewritten_bumpPages hsound.keyed
  have hcounts := countsFor_of_bumpPages hsound.keyed hpage
  by_cases hid : id ∈ d.touched
  · refine Draft.mem_touchedPages.mpr ⟨id, hid, ?_, hcounts⟩
    rw [Tree.contains_iff]
    cases hn : d.tree.node? id with
    | some n => exact ⟨n, rfl⟩
    | none =>
      -- A node that is not there was never there.
      exfalso
      rw [hg.node?, hn, Option.map_none] at hne
      cases hm : t.node? id with
      | none => exact hne hm.symm
      | some m =>
        obtain ⟨n, hn', -⟩ := hc.keepsKinds h hm
        exact Option.some_ne_none n (hn'.symm.trans hn)
  · -- What nobody has touched can only be a page that has gone up, and that encloses itself.
    have hsame := ((records_start t).writes hc.writes).node?_eq hid
    rw [hg.node?, ← hsame] at hne
    cases hn : d.tree.node? id with
    | none => exact absurd (by rw [hn, Option.map_none]) hne
    | some n =>
      rw [hn, Option.map_some, advance, hsound.keyed hn] at hne
      split at hne
      · next hmem =>
        cases hv : n.kind.version? with
        | none => exact absurd (by rw [bumped, hv]) hne
        | some version =>
          rw [hcounts.eq_of_page hn (Kind.isPage_of_version? hv)]
          exact Std.ExtTreeSet.mem_toList.mp hmem
      · exact absurd rfl hne

/-- In the end every page has its version or the next one, and the next one where a node that is new
or differs counts for it. -/
theorem Changes.advanced (hc : (start t).Changes e d) (h : t.Sound) :
    t.Advanced d.bumpPages.tree where
  once {page version} hv := by
    rw [version?_bumpPages (hc.sound h).keyed (hc.version?_eq h hv)]
    split
    · exact .inr rfl
    · exact .inl rfl
  raised hv hne hcounts := by
    rw [version?_bumpPages (hc.sound h).keyed (hc.version?_eq h hv),
      if_pos (hc.mem_touchedPages h hne hcounts)]

end Draft

end ContentTree
