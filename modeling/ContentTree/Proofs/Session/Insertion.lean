import ContentTree.Proofs.Draft.Versions
import ContentTree.Proofs.Edit.Splice
import ContentTree.Proofs.Session.Reach

/-!
# Insertions and replacements in transactions

With a store that takes everything, a node other than a fragment comes among the children of another
exactly where that is asked for by the tree, the evaluator and the policy. The lists of children
after the transaction are then those that one would write down: the node leaves the list it was in
and stands directly before the reference, or at the end. In the stead of a fragment its members are
put there side by side, and a replacement takes the replaced node out besides.

## Main definitions

* `Tree.Accepts`: what is asked for before a node comes among the children of another.

## Main results

* `WellFormed.admits_iff`: an examination passes exactly where that is met.
* `Session.insertion`: insertions and replacements, and what they make of a tree.
-/

namespace ContentTree

namespace Tree

variable {t t' t'' : Tree} {e : Editor} {p c old : NodeId} {new : List NodeId}
  {reference : Option NodeId}

/-- What is asked for before `c`, which is no fragment, comes among the children of `p`. -/
structure Accepts (t : Tree) (e : Editor) (p c : NodeId) (reference : Option NodeId) : Prop where
  parent : ∃ n, t.node? p = some n ∧ n.kind.isText = false ∧
    e.access.canWrite e.principal n = true
  child : ∃ n, t.node? c = some n ∧ n.kind.isPage = false
  apart : p ≠ c ∧ ¬ t.Below p c
  document : t.document? p = t.document? c ∨ t.document? p = none ∨ t.document? c = none ∨
    t.shadow = t.document? p
  reference_child : ∀ r, reference = some r → r ∈ t.children p
  policy : e.syncedParents = .allow ∨
    t.isSynced p = false ∧ ∀ q, t.Under c q → q ≠ p → t.isSynced q = false

/-- An examination passes exactly where what is asked for is met. -/
theorem WellFormed.admits_iff (h : t.WellFormed) :
    e.Admits t p c reference ↔ t.Accepts e p c reference := by
  constructor
  · intro ha
    obtain ⟨n, hn, haccepts⟩ := ha.exists_parent
    obtain ⟨m, hm, hw⟩ := Editor.mayWrite_eq_ok.mp ha.writable
    obtain rfl := Option.some.inj (hn.symm.trans hm)
    refine ⟨⟨n, hn, by simpa [Kind.acceptsChildren] using haccepts, hw⟩, ha.exists_child,
      ⟨ha.ne, fun hb => ?_⟩, ?_, fun r hr => h.mem_children_iff.mpr (ha.reference_under r hr), ?_⟩
    · exact Bool.false_ne_true (ha.not_ancestor.symm.trans (h.isAncestor_iff.mpr hb))
    · cases hp : t.document? p with
      | none => exact .inr (.inl rfl)
      | some a =>
        cases hc : t.document? c with
        | none => exact .inr (.inr (.inl rfl))
        | some b =>
          by_cases hab : a = b
          · exact .inl (congrArg some hab)
          · exact .inr (.inr (.inr (ha.same_document a b hp hc hab)))
    · rcases ha.unlocked with hallow | hp
      · exact .inl hallow
      · by_cases hallow : e.syncedParents = .allow
        · exact .inl hallow
        · exact .inr ⟨hp, fun q hq hne => (ha.unlocked_old q hq hne).resolve_left hallow⟩
  · rintro ⟨⟨n, hn, htext, hw⟩, hchild, ⟨hne, hbelow⟩, hdocument, hreference, hpolicy⟩
    refine ⟨⟨n, hn, by simp [Kind.acceptsChildren, htext]⟩, hchild,
      Editor.mayWrite_eq_ok.mpr ⟨n, hn, hw⟩, hne, ?_, fun a b ha hb hab => ?_,
      fun r hr => h.mem_children_iff.mp (hreference r hr), ?_, fun q hq hqp => ?_⟩
    · rwa [Bool.eq_false_iff, ne_eq, h.isAncestor_iff]
    · rw [ha, hb] at hdocument
      rcases hdocument with heq | hnone | hnone | hshadow
      · exact absurd (Option.some.inj heq) hab
      · exact nomatch hnone
      · exact nomatch hnone
      · exact hshadow
    · exact hpolicy.imp_right And.left
    · exact hpolicy.imp_right fun h => h.2 q hq hqp

theorem Inserts.congr (h : Inserts t t' p new reference)
    (hchildren : ∀ z, t''.children z = t'.children z)
    (hdocument : ∀ x, t''.document? x = t'.document? x) : Inserts t t'' p new reference where
  children_parent := (hchildren p).trans h.children_parent
  children_ne z hz := (hchildren z).trans (h.children_ne z hz)
  children_same z hz hnew := (hchildren z).trans (h.children_same z hz hnew)
  document c hc x hx := (hdocument x).trans (h.document c hc x hx)

theorem Replaces.congr (h : Replaces t t' p new old)
    (hchildren : ∀ z, t''.children z = t'.children z)
    (hdocument : ∀ x, t''.document? x = t'.document? x)
    (hparent : t''.parent? old = t'.parent? old) : Replaces t t'' p new old where
  children_parent := hchildren p ▸ h.children_parent
  children_ne z hz := (hchildren z).trans (h.children_ne z hz)
  children_same z hz hnew := (hchildren z).trans (h.children_same z hz hnew)
  document c hc x hx := (hdocument x).trans (h.document c hc x hx)
  old_root := hparent.trans h.old_root
  old_document := (hdocument old).trans h.old_document

end Tree

namespace Session

variable {t : Tree} {e : Editor} {d : Draft} {s : Session} {p c old a : NodeId}
  {reference : Option NodeId} {edit : Edit NodeId}

/-- What a transaction that succeeds leaves has the places and documents that its edit has left. -/
theorem exists_draft (ht : t.Sound) (hedit : edit.Composed) {store : Store}
    (hrun : run e edit ⟨t, store⟩ = (.ok a, s)) :
    ∃ d, edit.run e (Draft.start t) = (.ok a, d) ∧
      (∀ z, s.tree.children z = d.tree.children z) ∧
      (∀ x, s.tree.document? x = d.tree.document? x) ∧
      ∀ x, s.tree.parent? x = d.tree.parent? x := by
  obtain ⟨d, hd, hsound, hs⟩ := exists_run_of_run_eq_ok hedit ht hrun
  rw [hs]
  exact ⟨d, hd, Draft.children_bumpPages hsound.keyed, Draft.document?_bumpPages hsound.keyed,
    Draft.parent?_bumpPages hsound.keyed⟩

/-- What a successful insertion makes of a tree. -/
theorem inserts_of_run (ht : t.Sound) (hc : t.Coherent) {store : Store} {n : Node}
    (hrun : run e (Edit.insertBefore p c reference) ⟨t, store⟩ = (.ok a, s))
    (hn : t.node? c = some n) (hne : n.kind.isFragment = false → reference ≠ some c) :
    t.Inserts s.tree p (t.inserted c) reference := by
  obtain ⟨d, hd, hchildren, hdocument, -⟩ := exists_draft ht (.insertBefore p c reference) hrun
  obtain ⟨-, hinsert⟩ := Edit.run_insertBefore_eq_ok.mp hd
  have hchanges : (Draft.start t).Changes e d := by
    have htame := Edit.tame_insert e (Draft.start t) p c reference
    rwa [Edit.Tame, hinsert] at htame
  have hsplices := Edit.splices_insert ht hinsert hn hne
  exact (hsplices.inserts ht.toWellFormed (hchanges.coherent ht hc)).congr hchildren hdocument

/-- A node that is put before itself stays where it is. -/
theorem unmoved_of_run (ht : t.Sound) {store : Store} {n : Node}
    (hrun : run e (Edit.insertBefore p c (some c)) ⟨t, store⟩ = (.ok a, s))
    (hn : t.node? c = some n) (hfragment : n.kind.isFragment = false) :
    t.Under c p ∧ (∀ z, s.tree.children z = t.children z) ∧
      ∀ x, s.tree.document? x = t.document? x := by
  obtain ⟨d, hd, hchildren, hdocument, -⟩ := exists_draft ht (.insertBefore p c (some c)) hrun
  obtain ⟨-, hinsert⟩ := Edit.run_insertBefore_eq_ok.mp hd
  obtain ⟨rfl, hu⟩ := Edit.eq_of_insert_self hinsert hn hfragment
  exact ⟨hu, hchildren, hdocument⟩

/-- The result of an insertion is the node that was to be put into place. -/
theorem eq_of_run_insertBefore (ht : t.Sound) {store : Store}
    (hrun : run e (Edit.insertBefore p c reference) ⟨t, store⟩ = (.ok a, s)) :
    a = c ∧ p ≠ c ∧ ∃ n, t.node? c = some n := by
  obtain ⟨d, hd, -⟩ := exists_draft ht (.insertBefore p c reference) hrun
  obtain ⟨rfl, hinsert⟩ := Edit.run_insertBefore_eq_ok.mp hd
  exact ⟨rfl, Edit.ne_of_insert hinsert, Edit.exists_of_insert hinsert⟩

/-- With a store that takes everything, a node other than a fragment comes among the children of
another exactly where what is asked for is met. -/
theorem exists_run_ok_iff_accepts (ht : t.Sound) {store : Store} (hstore : store.Accepting)
    (hfragment : ∀ n, t.node? c = some n → n.kind.isFragment = false) :
    (∃ a, (run e (Edit.insertBefore p c reference) ⟨t, store⟩).1 = .ok a) ↔
      t.Accepts e p c reference := by
  rw [exists_run_ok_iff (.insertBefore p c reference) ht hstore, ← ht.toWellFormed.admits_iff]
  constructor
  · rintro ⟨a, ha⟩
    obtain ⟨-, hinsert⟩ := Edit.run_insertBefore_eq_ok.mp (Prod.ext ha rfl)
    obtain ⟨n, hn⟩ := Edit.exists_of_insert hinsert
    exact (Edit.run_insertOne_eq_ok.mp
      (Edit.insertOne_of_insert hn (hfragment n hn) hinsert)).1
  · intro ha
    obtain ⟨n, hn, -⟩ := ha.exists_child
    have hadmits : e.admits (Draft.start t).tree p c reference = .ok () :=
      Editor.admits_eq_ok.mpr ha
    have hinsert : (Edit.insert p c reference).run e (Draft.start t) = (.ok (), _) :=
      (Edit.run_insert_eq hn (hfragment n hn)).trans (by rw [hadmits])
    exact ⟨c, congrArg Prod.fst (Edit.run_insertBefore_eq_ok.mpr ⟨rfl, hinsert⟩)⟩

/-- Insertions and replacements agree with lists, and a store that takes everything does not get in
their way.

A node other than a fragment comes among the children of `p` exactly where what is asked for is met,
and then stands directly before the reference or at the end; before itself it stays where it is. The
members of a fragment come in its stead, and the fragment remains empty. Whatever replaces another
node stands where that was. -/
theorem insertion (ht : t.Sound) (hc : t.Coherent) (e : Editor) {store : Store}
    (hstore : store.Accepting) (p c old : NodeId) (reference : Option NodeId) :
    (∀ edit, edit = Edit.insertBefore p c reference ∨
        reference = none ∧ edit = Edit.append p c →
      ((∀ n, t.node? c = some n → n.kind.isFragment = false) →
        ((∃ a, (run e edit ⟨t, store⟩).1 = .ok a) ↔ t.Accepts e p c reference) ∧
        ∀ a s, run e edit ⟨t, store⟩ = (.ok a, s) → a = c ∧
          (reference ≠ some c → t.Inserts s.tree p [c] reference) ∧
          (reference = some c → (∀ z, s.tree.children z = t.children z) ∧
            ∀ x, t.Within x c → s.tree.document? x = t.document? p)) ∧
      ((∃ n, t.node? c = some n ∧ n.kind.isFragment = true) →
        ∀ a s, run e edit ⟨t, store⟩ = (.ok a, s) → a = c ∧
          t.Inserts s.tree p (t.children c) reference ∧ s.tree.children c = [])) ∧
    (c ≠ old → ∀ a s, run e (Edit.replace p c old) ⟨t, store⟩ = (.ok a, s) →
      a = old ∧ t.Replaces s.tree p (t.inserted c) old) := by
  refine ⟨fun edit hedit => ?_, fun hne a s hrun => ?_⟩
  · -- Putting a node at the end is putting it before nothing.
    obtain rfl : edit = Edit.insertBefore p c reference := by
      rcases hedit with rfl | ⟨rfl, rfl⟩ <;> rfl
    refine ⟨fun hplain => ⟨exists_run_ok_iff_accepts ht hstore hplain, fun a s hrun => ?_⟩,
      fun ⟨n, hn, hfragment⟩ a s hrun => ?_⟩ <;>
      obtain ⟨rfl, hpa, m, hm⟩ := eq_of_run_insertBefore ht hrun
    · refine ⟨rfl, fun hne => ?_, ?_⟩
      · rw [← Tree.inserted_of_not_fragment hm (hplain m hm)]
        exact inserts_of_run ht hc hrun hm fun _ => hne
      · rintro rfl
        obtain ⟨hu, hchildren, hdocument⟩ := unmoved_of_run ht hrun hm (hplain m hm)
        exact ⟨hchildren, fun x hx => by
          rw [hdocument, hc.document_within hx, hc.document_eq hu]⟩
    · have hinserts := inserts_of_run ht hc hrun hn fun hplain =>
        absurd (hfragment.symm.trans hplain) Bool.true_eq_false.mp
      rw [Tree.inserted_of_fragment hn hfragment] at hinserts
      refine ⟨rfl, hinserts, ?_⟩
      rw [hinserts.children_ne a hpa.symm]
      exact List.filter_eq_nil_iff.mpr fun x hx => by simpa using hx
  · obtain ⟨d, hd, hchildren, hdocument, hparent⟩ := exists_draft ht (.replace p c old) hrun
    obtain ⟨rfl, hreplaces⟩ := Edit.replaces_of_replace ht hc hne hd
    exact ⟨rfl, hreplaces.congr hchildren hdocument (hparent a)⟩

/-- A page with two filled boxes. -/
def filledBoxes : Snapshot :=
  .mk (some 1) { kind := .page "home" 0 false } none
    [.mk (some 2) { kind := .element "p" ∅ } none
        [.mk (some 3) { kind := .text "one" none } none [],
          .mk (some 4) { kind := .element "b" ∅ } none []],
      .mk (some 5) { kind := .element "q" ∅ } none
        [.mk (some 6) { kind := .element "i" ∅ } none []]]

/-- A fragment with two members. -/
def twoMembers : Snapshot :=
  .mk (some 7) { kind := .fragment } none
    [.mk (some 8) { kind := .element "u" ∅ } none [],
      .mk (some 9) { kind := .text "nine" none } none []]

/-- Both of them in one tree. -/
def boxesAndMembers : Tree := ((({} : Tree).load filledBoxes).2.load twoMembers).2

theorem reachable_boxesAndMembers : boxesAndMembers.Reachable .successful :=
  have hboxes : (({} : Tree).load filledBoxes).2.Reachable .successful :=
    .load .empty filledBoxes ⟨1, by decide⟩
  .load hboxes twoMembers ⟨7, by decide⟩

/-- A node comes into the other box, the members of the fragment come where it was put, and a box
takes the place of a text. -/
theorem insertion_boxesAndMembers :
    boxesAndMembers.Accepts ⟨.anonymous, .unrestricted, .reject⟩ 2 6 (some 4) ∧
    (run ⟨.anonymous, .unrestricted, .reject⟩ (Edit.insertBefore 2 6 (some 4))
      ⟨boxesAndMembers, {}⟩).2.tree.children 2 = [3, 6, 4] ∧
    (run ⟨.anonymous, .unrestricted, .reject⟩ (Edit.insertBefore 2 7 (some 4))
      ⟨boxesAndMembers, {}⟩).2.tree.children 2 = [3, 8, 9, 4] ∧
    ∃ xs ys, [3, 4] = xs ++ 3 :: ys ∧
      (run ⟨.anonymous, .unrestricted, .reject⟩ (Edit.replace 2 5 3)
        ⟨boxesAndMembers, {}⟩).2.tree.children 2 = xs ++ [5] ++ ys := by
  have hstore : Store.Accepting {} := ⟨rfl, rfl, rfl⟩
  have h := insertion reachable_boxesAndMembers.sound reachable_boxesAndMembers.coherent
    ⟨.anonymous, .unrestricted, .reject⟩ hstore
  have hplain : ∀ n, boxesAndMembers.node? 6 = some n → n.kind.isFragment = false := by
    intro n hn
    have hkind : (boxesAndMembers.node? 6).map (·.kind.isFragment) = some false := by decide
    rw [hn] at hkind
    exact Option.some.inj hkind
  have hmembers : ∃ n, boxesAndMembers.node? 7 = some n ∧ n.kind.isFragment = true :=
    (Option.any_eq_true _ _).mp (by decide)
  obtain ⟨hiff, hbox⟩ := ((h 2 6 0 (some 4)).1 _ (.inl rfl)).1 hplain
  obtain ⟨-, hinserts, -⟩ := ((h 2 7 0 (some 4)).1 _ (.inl rfl)).2 hmembers 7 _
    (Prod.ext (by decide) rfl)
  obtain ⟨-, hreplaces⟩ := (h 2 5 3 none).2 (by decide) 3 _ (Prod.ext (by decide) rfl)
  refine ⟨hiff.mp ⟨6, by decide⟩, ?_, ?_, ?_⟩
  · exact ((hbox 6 _ (Prod.ext (by decide) rfl)).2.1 (by decide)).children_parent
  · exact hinserts.children_parent
  · exact hreplaces.children_parent

end Session

end ContentTree
