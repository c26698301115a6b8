import ContentTree.Proofs.Draft.Join

/-!
# Runs are gathered in their first members

Whenever two texts side by side are joined, in whatever order, every list of children remains one
that has been taken apart into parts, of which only the first members are left. Such a member says
what its part has said, and the others of the part are in the trash as they were. When no two texts
stand side by side any more, the parts are the runs.

## Main definitions

* `Tree.TakesOver`: one of several children has taken over what the others say.
* `Tree.Gathered`: what joining texts makes of a tree.
* `Tree.Fresh`: nothing has been joined at or below a node.

## Main results

* `Gathered.join`: joining two texts more.
* `Gathered.runs`: a list in which no two texts stand side by side is that of the runs.
* `Gathered.textContent_eq`: no node other than a text says anything else.
-/

namespace ContentTree.Tree

open Relation

variable {t t₁ t₂ : Tree} {p z x first second : NodeId} {rest xs ys : List NodeId}

theorem inTrash_iff : t.inTrash x = true ↔ ∃ c, t.content? x = some c ∧ c.kind.isPage = false ∧
    t.parent? x = none ∧ t.document? x = none := by
  rw [inTrash, content?, parent?, document?]
  cases t.node? x with
  | none => simp
  | some n =>
    cases hpage : n.kind.isPage <;> simp [hpage, Node.owningPage]

/-- The first of several children has taken over what the others say, and they are in the trash as
they were. -/
structure TakesOver (t t' : Tree) (first : NodeId) (rest : List NodeId) : Prop where
  texts : rest ≠ [] → ∀ x ∈ first :: rest, t.isText x = true
  content : t'.content? first =
    (t.content? first).map (·.withText (t.runText (first :: rest)))
  trash : ∀ x ∈ rest, t'.inTrash x = true ∧ t'.content? x = t.content? x

/-- What joining texts makes of a tree. Lists of children have been taken apart, and only the first
members of the parts are left. Whatever belongs to no document has been left alone, or it went there
as it was. -/
structure Gathered (t t' : Tree) : Prop where
  parts : ∀ z, ∃ gs, t.children z = assembled gs ∧ t'.children z = gs.map Prod.fst ∧
    ∀ g ∈ gs, TakesOver t t' g.1 g.2
  under : ∀ {x y}, t'.Under x y → t.Under x y
  isText : ∀ x, t'.isText x = t.isText x
  node : ∀ x n, t.node? x = some n → ∃ m, t'.node? x = some m ∧
    (t'.document? x ≠ none → n.Dwindles m)
  untouched : ∀ z, t'.document? z = none → t'.children z = t.children z
  sharing : t'.sharing = t.sharing

/-- Nothing has been joined at or below a node. -/
structure Fresh (t t' : Tree) (r : NodeId) : Prop where
  children : ∀ z, t.Within z r → t'.children z = t.children z
  content : ∀ x, t.Below x r → t'.content? x = t.content? x

theorem Fresh.refl (t : Tree) (r : NodeId) : Fresh t t r := ⟨fun _ _ => rfl, fun _ _ => rfl⟩

theorem TakesOver.single (t : Tree) (x : NodeId) : TakesOver t t x [] where
  texts h := absurd rfl h
  content := by
    rw [runText_singleton, ownText, content?]
    cases t.node? x with
    | none => rfl
    | some n =>
      rw [Option.map_some, Option.map_some, Content.withText, Option.bind_some,
        Kind.withText_textContent]
  trash x h := nomatch h

theorem Gathered.refl (t : Tree) : Gathered t t where
  parts z := by
    refine ⟨(t.children z).map fun x => (x, []), ?_, ?_, ?_⟩
    · simp [assembled, List.flatMap_map]
    · rw [List.map_map]
      exact (List.map_id _).symm
    · rintro g hg
      obtain ⟨x, -, rfl⟩ := List.mem_map.mp hg
      exact .single t x
  under h := h
  isText _ := rfl
  node _ n hn := ⟨n, hn, fun _ => .refl n⟩
  untouched _ _ := rfl
  sharing := rfl

/-! ### One join -/

namespace JoinsInto

variable (h : JoinsInto t₁ t₂ first second)
include h

theorem isText (x : NodeId) : t₂.isText x = t₁.isText x := by
  rw [isText_eq_of_content?, isText_eq_of_content?]
  by_cases hx : x = first
  · rw [hx, h.content_first]
    cases t₁.content? first with
    | none => rfl
    | some c => cases hk : c.kind <;> simp [Content.withText, Kind.withText, hk, Kind.isText]
  · rw [h.content_ne x hx]

theorem children_of_ne (ht : t₁.WellFormed) (hsecond : t₁.Under second p) (hz : z ≠ p) :
    t₂.children z = t₁.children z := by
  rw [h.children, List.erase_of_not_mem fun hmem => hz ((ht.mem_children_iff.mp hmem).eq hsecond)]

/-- What is in the trash stays there. -/
theorem inTrash (hfirst : t₁.Under first p) (hx : t₁.inTrash x = true) :
    t₂.inTrash x = true ∧ t₂.content? x = t₁.content? x := by
  obtain ⟨c, hc, hpage, hparent, hdocument⟩ := inTrash_iff.mp hx
  have hne : x ≠ first := by
    rintro rfl
    exact Option.some_ne_none _ (Eq.symm hfirst |>.trans hparent)
  have hcontent := h.content_ne x hne
  refine ⟨inTrash_iff.mpr ⟨c, hcontent.trans hc, hpage, ?_, ?_⟩, hcontent⟩
  · by_contra hsome
    obtain ⟨q, hq⟩ := Option.ne_none_iff_exists'.mp hsome
    exact Option.some_ne_none _ (((h.under x q).mp hq).2.symm.trans hparent)
  · rcases h.document x with hsame | hnone
    · exact hsame.trans hdocument
    · exact hnone

theorem inTrash_second (hne : second ≠ first) (htext : t₁.isText second = true) :
    t₂.inTrash second = true := by
  rw [isText_eq_of_content?] at htext
  obtain ⟨c, hc, hk⟩ := (Option.any_eq_true _ _).mp htext
  refine inTrash_iff.mpr ⟨c, (h.content_ne second hne).trans hc, ?_, ?_, h.document_second⟩
  · cases hkind : c.kind <;> simp_all [Kind.isText, Kind.isPage]
  · by_contra hsome
    obtain ⟨q, hq⟩ := Option.ne_none_iff_exists'.mp hsome
    exact ((h.under second q).mp hq).1 rfl

end JoinsInto

namespace TakesOver

/-- A part whose first member is not concerned stays as it is. -/
theorem join (h : TakesOver t t₁ x rest) (hj : JoinsInto t₁ t₂ first second)
    (hfirst : t₁.Under first p) (hx : x ≠ first) : TakesOver t t₂ x rest where
  texts := h.texts
  content := (hj.content_ne x hx).trans h.content
  trash y hy := by
    obtain ⟨htrash, hcontent⟩ := h.trash y hy
    exact (hj.inTrash hfirst htrash).imp_right fun hsame => hsame.trans hcontent

theorem ownText (h : TakesOver t t₁ x rest) (htext : t.isText x = true) :
    t₁.ownText x = t.runText (x :: rest) := by
  rw [isText_eq_of_content?] at htext
  obtain ⟨c, hc, hk⟩ := (Option.any_eq_true _ _).mp htext
  rw [ownText_eq_of_content?, h.content, hc, Option.map_some, Option.bind_some, Content.withText,
    Kind.textContent?_withText hk]
  rfl

theorem content_eq (h : TakesOver t t₁ x []) : t₁.content? x = t.content? x :=
  h.content.trans (single t x).content.symm

end TakesOver

/-- Two neighbouring parts become one. -/
theorem TakesOver.append {rest' : List NodeId} (h : TakesOver t t₁ first rest)
    (h' : TakesOver t t₁ second rest') (hj : JoinsInto t₁ t₂ first second)
    (hfirst : t₁.Under first p) (hne : second ≠ first) (htext : t.isText first = true)
    (htext' : t₁.isText second = true ∧ t.isText second = true)
    (hfresh : t₁.content? second = t.content? second) :
    TakesOver t t₂ first (rest ++ second :: rest') where
  texts _ x hx := by
    rcases List.mem_cons.mp hx with rfl | hx
    · exact htext
    rcases List.mem_append.mp hx with hx | hx
    · exact h.texts (List.ne_nil_of_mem hx) x (List.mem_cons_of_mem _ hx)
    rcases List.mem_cons.mp hx with rfl | hx
    · exact htext'.2
    · exact h'.texts (List.ne_nil_of_mem hx) x (List.mem_cons_of_mem _ hx)
  content := by
    rw [hj.content_first, h.content, h.ownText htext, h'.ownText htext'.2, Option.map_map,
      ← List.cons_append, runText_append]
    congr 1
    funext c
    cases hk : c.kind <;> simp [Content.withText, Kind.withText, hk]
  trash x hx := by
    rcases List.mem_append.mp hx with hx | hx
    · exact (hj.inTrash hfirst (h.trash x hx).1).imp_right fun hsame => hsame.trans (h.trash x hx).2
    rcases List.mem_cons.mp hx with rfl | hx
    · exact ⟨hj.inTrash_second hne htext'.1, (hj.content_ne x hne).trans hfresh⟩
    · exact (hj.inTrash hfirst (h'.trash x hx).1).imp_right fun hsame =>
        hsame.trans (h'.trash x hx).2

/-! ### Any number of joins -/

namespace Gathered

theorem within (h : Gathered t t₁) (hw : t₁.Within x z) : t.Within x z :=
  ReflTransGen.mono (fun _ _ hu => h.under hu) _ _ hw

section Join

variable (h : Gathered t t₁) (ht : t₁.WellFormed) (hj : JoinsInto t₁ t₂ first second)
  (hlist : t₁.children p = xs ++ first :: second :: ys)
include h ht hj hlist

/-- The parts of the list in which two texts are joined. -/
theorem parts_join (htext : t.isText first = true) (htext' : t.isText second = true)
    (hfresh : t₁.content? second = t.content? second) :
    ∃ gs, t.children p = assembled gs ∧ t₂.children p = gs.map Prod.fst ∧
      ∀ g ∈ gs, TakesOver t t₂ g.1 g.2 := by
  obtain ⟨gs, hold, hnew, hall⟩ := h.parts p
  have hnodup : (xs ++ first :: second :: ys).Nodup := hlist ▸ ht.nodup_children p
  have hfirst : t₁.Under first p := ht.mem_children_iff.mp (by rw [hlist]; simp)
  -- The two texts are the first members of neighbouring parts.
  rw [hlist] at hnew
  obtain ⟨gs₁, rest, rest', gs₂, rfl, hxs, hys⟩ := exists_parts hnew.symm
  refine ⟨gs₁ ++ (first, rest ++ second :: rest') :: gs₂, ?_, ?_, fun g hg => ?_⟩
  · rw [hold]
    simp [assembled]
  · have hsecond : second ∉ xs ++ [first] := by
      intro hmem
      rw [List.append_cons] at hnodup
      exact (List.nodup_append'.mp hnodup).2.2 hmem List.mem_cons_self
    rw [hj.children, hlist, List.append_cons, List.erase_append_right _ hsecond,
      List.erase_cons_head, List.map_append, hxs, List.map_cons, hys]
    simp
  · have hneighbours : second ≠ first := by
      rintro rfl
      simp [List.nodup_append] at hnodup
    have hbefore : ∀ g ∈ gs₁, g.1 ≠ first := by
      intro g hg heq
      have hmem : first ∈ xs := heq ▸ hxs ▸ List.mem_map_of_mem hg
      exact (List.nodup_append'.mp hnodup).2.2 hmem List.mem_cons_self
    have hafter : ∀ g ∈ gs₂, g.1 ≠ first := by
      intro g hg heq
      have hmem : first ∈ ys := heq ▸ hys ▸ List.mem_map_of_mem hg
      exact (List.nodup_cons.mp (List.nodup_append'.mp hnodup).2.1).1
        (List.mem_cons_of_mem _ hmem)
    rcases List.mem_append.mp hg with hg | hg
    · exact (hall g (by simp [hg])).join hj hfirst (hbefore g hg)
    rcases List.mem_cons.mp hg with rfl | hg
    · exact (hall (first, rest) (by simp)).append (hall (second, rest') (by simp)) hj hfirst
        hneighbours htext ⟨(h.isText second).trans htext', htext'⟩ hfresh
    · exact (hall g (by simp [hg])).join hj hfirst (hafter g hg)

/-- Joining two texts more. -/
theorem join (hdocument : t₁.document? p ≠ none) (htext : t.isText first = true)
    (htext' : t.isText second = true) (hcontent : t₁.content? second = t.content? second)
    (hfresh : Fresh t t₁ second) : Gathered t t₂ := by
  have hfirst : t₁.Under first p := ht.mem_children_iff.mp (by rw [hlist]; simp)
  have hsecond : t₁.Under second p := ht.mem_children_iff.mp (by rw [hlist]; simp)
  refine
    { parts := fun z => ?parts, under := fun hu => h.under ((hj.under _ _).mp hu).2
      isText := fun x => (hj.isText x).trans (h.isText x), node := fun x n hn => ?node
      untouched := fun z hz => ?untouched, sharing := hj.sharing.trans h.sharing }
  case parts =>
    by_cases hz : z = p
    · exact hz ▸ h.parts_join ht hj hlist htext htext' hcontent
    · obtain ⟨gs, hold, hnew, hall⟩ := h.parts z
      refine ⟨gs, hold, (hj.children_of_ne ht hsecond hz).trans hnew, fun g hg => ?_⟩
      refine (hall g hg).join hj hfirst fun heq => hz ?_
      have hmem : g.1 ∈ t₁.children z := hnew ▸ List.mem_map_of_mem hg
      exact (ht.mem_children_iff.mp hmem).eq (heq ▸ hfirst)
  case node =>
    obtain ⟨m, hm, hdwindles⟩ := h.node x n hn
    obtain ⟨m', hm', hdwindles'⟩ := hj.node x m hm
    refine ⟨m', hm', fun hkept => (hdwindles fun hnone => ?_).trans (hdwindles' hkept)⟩
    rcases hj.document x with hsame | hgone
    · exact hkept (hsame.trans hnone)
    · exact hkept hgone
  case untouched =>
    -- What has just left the document has not been touched before.
    by_cases hw : t₁.Within z second
    · have hzp : z ≠ p := by
        rintro rfl
        exact ht.acyclic z (TransGen.tail' hw hsecond)
      exact (hj.children_of_ne ht hsecond hzp).trans (hfresh.children z (h.within hw))
    · rw [hj.document_ne z hw] at hz
      have hzp : z ≠ p := by
        rintro rfl
        exact hdocument hz
      exact (hj.children_of_ne ht hsecond hzp).trans (h.untouched z hz)

end Join

/-! ### What has come out in the end -/

/-- A list in which no two texts stand side by side is that of the runs. -/
theorem runs (h : Gathered t t₁) (hseparate : t₁.Separate z) :
    t₁.children z = (t.runs z).filterMap List.head? ∧
      ∀ first rest, first :: rest ∈ t.runs z → TakesOver t t₁ first rest := by
  obtain ⟨gs, hold, hnew, hall⟩ := h.parts z
  have hheads : (gs.map Prod.fst).IsChain fun x y => ¬ (t.isText x = true ∧ t.isText y = true) := by
    rw [← hnew]
    exact hseparate.imp fun x y hxy => by rwa [h.isText, h.isText] at hxy
  rw [runs_eq hold (fun g hg => (hall g hg).texts) hheads]
  refine ⟨?_, fun first rest hmem => ?_⟩
  · rw [hnew, List.filterMap_map, ← List.filterMap_eq_map]
    rfl
  · obtain ⟨g, hg, heq⟩ := List.mem_map.mp hmem
    obtain ⟨rfl, rfl⟩ := List.cons.inj heq
    exact hall g hg

/-- The children of a list that has been left alone have been left alone. -/
theorem content_of_children_eq (h : Gathered t t₁) (ht : t.WellFormed)
    (hz : t₁.children z = t.children z) (hx : t.Under x z) : t₁.content? x = t.content? x := by
  obtain ⟨gs, hold, hnew, hall⟩ := h.parts z
  have hsingle := eq_nil_of_assembled_eq (hold.symm.trans (hz.symm.trans hnew))
  have hmem := ht.mem_children_iff.mpr hx
  rw [← hz, hnew] at hmem
  obtain ⟨g, hg, rfl⟩ := List.mem_map.mp hmem
  have hover := hall g hg
  rw [hsingle g hg] at hover
  exact hover.content_eq

/-- Two texts side by side are left of a run with several members. -/
theorem exists_run (h : Gathered t t₁) (hlist : t₁.children p = xs ++ first :: second :: ys)
    (htext : t₁.isText first = true) (htext' : t₁.isText second = true) :
    ∃ run ∈ t.runs p, 2 ≤ run.length := by
  obtain ⟨gs, hold, hnew, hall⟩ := h.parts p
  rw [hlist] at hnew
  obtain ⟨gs₁, rest, rest', gs₂, rfl, -⟩ := exists_parts hnew.symm
  rw [h.isText] at htext htext'
  -- The last member of the first part is a text as well.
  rcases List.eq_nil_or_concat rest with rfl | ⟨init, last, rfl⟩
  · have hadjacent :
        t.children p = assembled gs₁ ++ first :: second :: (rest' ++ assembled gs₂) := by
      rw [hold]
      simp [assembled]
    exact exists_run_of_adjacent hadjacent htext htext'
  · have hadjacent : t.children p =
        (assembled gs₁ ++ first :: init) ++ last :: second :: (rest' ++ assembled gs₂) := by
      rw [hold]
      simp [assembled]
    have hlast := (hall (first, init.concat last) (by simp)).texts (by simp) last (by simp)
    exact exists_run_of_adjacent hadjacent hlast htext'

/-- No node other than a text says anything else. -/
theorem textContent_eq (h : Gathered t t₁) (ht : t.WellFormed) (ht₁ : t₁.WellFormed)
    (htext : t.isText z = false) : t₁.textContent z = t.textContent z := by
  induction hk : t₁.extent z using Nat.strong_induction_on generalizing z with
  | _ k ih =>
    obtain ⟨gs, hold, hnew, hall⟩ := h.parts z
    -- Every part says what its first member says now.
    have hpart : ∀ g ∈ gs,
        t₁.textContent g.1 = String.join ((g.1 :: g.2).map t.textContent) := by
      rintro ⟨x, rest⟩ hg
      have hover := hall _ hg
      cases hx : t.isText x with
      | true =>
        rw [ht₁.textContent_eq, h.isText, if_pos hx, hover.ownText hx, runText]
        congr 1
        refine List.map_congr_left fun y hy => ?_
        have hy' : t.isText y = true := by
          by_cases hsingle : rest = []
          · rw [hsingle, List.mem_singleton] at hy
            exact hy ▸ hx
          · exact hover.texts hsingle y hy
        rw [ht.textContent_eq, if_pos hy']
      | false =>
        have hsingle : rest = [] := by
          by_contra hne
          exact Bool.false_ne_true (hx.symm.trans (hover.texts hne x List.mem_cons_self))
        have hmem : x ∈ t₁.children z := hnew ▸ List.mem_map_of_mem hg
        rw [hsingle, List.map_singleton, String.join_cons, String.join_nil, String.append_empty]
        exact ih _ (hk ▸ ht₁.extent_lt (ht₁.mem_children_iff.mp hmem)) hx rfl
    rw [ht₁.textContent_eq, ht.textContent_eq, h.isText, htext, if_neg Bool.false_ne_true,
      if_neg Bool.false_ne_true, hnew, hold, assembled, List.map_flatMap, join_flatMap,
      List.map_map]
    congr 1
    exact List.map_congr_left hpart

end Gathered

end ContentTree.Tree
