import ContentTree.Proofs.Draft.Documents
import ContentTree.Proofs.Merge.Step

/-!
# Insertion in terms of lists

A node that is put among the children of another leaves every list it was in and enters one list at
one place. The members of a fragment do so one after the other, each of them directly before the
reference or at the end, so that in the end they stand there side by side in their order.

## Main definitions

* `spliced`: a list with others put before one of its entries, or at the end.
* `Tree.Splices`: nodes have come among the children of another, and no other list has gained any.
* `Tree.Inserts`, `Tree.Replaces`: what insertions and replacements make of a tree.

## Main results

* `Tree.Splices.trans`: after some nodes, others.
* `Edit.run_insertOne_eq_ok`: when a single node is put into place, and how.
* `Edit.splices_insertAll`: the members of a fragment are put into place one after the other.
* `Edit.splices_insert`, `Edit.replaces_of_replace`: what is accepted, and what takes the place of
  another node.
-/

namespace ContentTree

open Relation

/-! ### Lists -/

/-- A list of children with `new` put directly before `reference`, or at the end. -/
def spliced (cs new : List NodeId) (reference : Option NodeId) : List NodeId :=
  let index := match reference with
    | some r => cs.idxOf r
    | none => cs.length
  cs.take index ++ new ++ cs.drop index

section Spliced

variable {cs new others xs ys : List NodeId} {r c : NodeId} {reference : Option NodeId}

@[simp] theorem spliced_end (cs new : List NodeId) : spliced cs new none = cs ++ new := by
  simp [spliced]

@[simp] theorem spliced_nil (cs : List NodeId) (reference : Option NodeId) :
    spliced cs [] reference = cs := by
  simp [spliced]

theorem spliced_before (hr : r ∉ xs) (new ys : List NodeId) :
    spliced (xs ++ r :: ys) new (some r) = xs ++ new ++ r :: ys := by
  simp [spliced, List.idxOf_append_of_notMem hr]

theorem spliced_of_notMem (hr : r ∉ cs) (new : List NodeId) :
    spliced cs new (some r) = cs ++ new := by
  simp [spliced, List.idxOf_eq_length hr]

/-- What follows what has been put into a list stands directly behind it. -/
theorem spliced_spliced (hr : ∀ r, reference = some r → r ∈ cs ∧ r ∉ new) (others : List NodeId) :
    spliced (spliced cs new reference) others reference = spliced cs (new ++ others) reference := by
  cases reference with
  | none => simp
  | some r =>
    obtain ⟨hmem, hnew⟩ := hr r rfl
    obtain ⟨xs, ys, rfl, hxs⟩ := List.eq_append_cons_of_mem hmem
    rw [spliced_before hxs, spliced_before hxs, spliced_before (by simp [hxs, hnew]),
      List.append_assoc xs]

/-- Leaving some entries out, before or after. -/
theorem filter_spliced {q : NodeId → Bool} (hr : ∀ r, reference = some r → q r = true) :
    (spliced cs new reference).filter q = spliced (cs.filter q) (new.filter q) reference := by
  cases reference with
  | none => simp
  | some r =>
    by_cases hmem : r ∈ cs
    · obtain ⟨xs, ys, rfl, hxs⟩ := List.eq_append_cons_of_mem hmem
      have hxs' : r ∉ xs.filter q := fun h => hxs (List.mem_of_mem_filter h)
      simp only [spliced_before hxs, List.filter_append, List.filter_cons_of_pos (hr r rfl),
        spliced_before hxs']
    · have hmem' : r ∉ cs.filter q := fun h => hmem (List.mem_of_mem_filter h)
      rw [spliced_of_notMem hmem, spliced_of_notMem hmem', List.filter_append]

end Spliced

/-! ### Nodes that come among the children of another -/

namespace Tree

variable {t t' t'' : Tree} {p c x z : NodeId} {new others : List NodeId}
  {reference : Option NodeId}

/-- The nodes `new` have come among the children of `p`, directly before `reference` or at the end.
They have left the lists they were in, and nothing else has changed its place. -/
structure Splices (t t' : Tree) (p : NodeId) (new : List NodeId) (reference : Option NodeId) :
    Prop where
  under : ∀ x y, t'.Under x y ↔ if x ∈ new then y = p else t.Under x y
  children_parent :
    t'.children p = spliced ((t.children p).filter (· ∉ new)) new reference
  children_ne : ∀ z, z ≠ p → t'.children z = (t.children z).filter (· ∉ new)
  document_parent : t'.document? p = t.document? p

theorem WellFormed.erase_eq (h : t.WellFormed) (z c : NodeId) :
    (t.children z).erase c = (t.children z).filter (· ∉ [c]) := by
  rw [(h.nodup_children z).erase_eq_filter]
  exact List.filter_congr fun x _ => by simp [bne, beq_eq_decide]

/-- A single node is put into place. -/
theorem Puts.splices (h : Puts t t' p c reference) (ht : t.WellFormed) :
    Splices t t' p [c] reference where
  under x y := by simpa using h.under x y
  children_parent := by
    rw [← ht.erase_eq]
    cases reference with
    | none => rw [h.at_end rfl, spliced_end]
    | some r =>
      obtain ⟨xs, ys, hlist, hlist'⟩ := h.before r rfl
      have hr : r ∉ xs := by
        have hnodup := (ht.nodup_children p).erase c
        rw [hlist] at hnodup
        exact fun hmem => (List.nodup_append'.mp hnodup).2.2 hmem List.mem_cons_self
      rw [hlist, hlist', spliced_before hr]
      simp
  children_ne z hz := by rw [h.children_ne z hz, ht.erase_eq]
  document_parent := by rcases h.document p with h | h <;> exact h

namespace Splices

theorem nil (t : Tree) (p : NodeId) (reference : Option NodeId) : Splices t t p [] reference where
  under x y := by simp
  children_parent := by simp
  children_ne z _ := by simp
  document_parent := rfl

/-- After some nodes, others. -/
theorem trans (h : Splices t t' p new reference) (h' : Splices t' t'' p others reference)
    (hdisjoint : ∀ c ∈ new, c ∉ others)
    (hr : ∀ r, reference = some r → r ∈ t.children p ∧ r ∉ new ∧ r ∉ others) :
    Splices t t'' p (new ++ others) reference where
  under x y := by
    rw [h'.under, h.under]
    by_cases hx : x ∈ others <;> by_cases hx' : x ∈ new <;> simp [hx, hx']
  children_parent := by
    have hnew : new.filter (· ∉ others) = new :=
      List.filter_eq_self.mpr fun c hc => by simpa using hdisjoint c hc
    rw [h'.children_parent, h.children_parent, filter_spliced fun r hr' => by simp [hr r hr'],
      List.filter_filter, hnew, spliced_spliced]
    · congr 1
      refine List.filter_congr fun c _ => ?_
      simp [Bool.and_comm, not_or]
    · intro r hr'
      obtain ⟨hmem, hn, ho⟩ := hr r hr'
      exact ⟨List.mem_filter.mpr ⟨hmem, by simp [hn, ho]⟩, hn⟩
  children_ne z hz := by
    rw [h'.children_ne z hz, h.children_ne z hz, List.filter_filter]
    refine List.filter_congr fun c _ => ?_
    simp [Bool.and_comm, not_or]
  document_parent := h'.document_parent.trans h.document_parent

/-- Whoever stood at or below one of the nodes still stands at or below one of them. -/
theorem exists_within (h : Splices t t' p new reference) (hw : t.Within x c) (hc : c ∈ new) :
    ∃ c' ∈ new, t'.Within x c' := by
  induction hw using ReflTransGen.head_induction_on with
  | refl => exact ⟨c, hc, .refl⟩
  | @head x y hxy _ ih =>
    by_cases hx : x ∈ new
    · exact ⟨x, hx, .refl⟩
    · obtain ⟨c', hc', hw'⟩ := ih
      exact ⟨c', hc', hw'.head ((h.under x y).mpr (by rwa [if_neg hx]))⟩

/-- The branches that have come into place belong to the document of their new parent. -/
theorem document_eq (h : Splices t t' p new reference) (hcoherent : t'.Coherent) (hc : c ∈ new)
    (hw : t.Within x c) : t'.document? x = t.document? p := by
  obtain ⟨c', hc', hw'⟩ := h.exists_within hw hc
  have hunder : t'.Under c' p := (h.under c' p).mpr (by rw [if_pos hc'])
  rw [hcoherent.document_within hw', hcoherent.document_eq hunder, h.document_parent]

end Splices

/-! ### What insertions and replacements make of a tree -/

/-- The nodes `new` have come among the children of `p`, directly before `reference` or at the end.
No other list has gained any node, the lists that none of them was in are as before, and their
branches belong to the document of `p`. -/
structure Inserts (t t' : Tree) (p : NodeId) (new : List NodeId) (reference : Option NodeId) :
    Prop where
  children_parent :
    t'.children p = spliced ((t.children p).filter (· ∉ new)) new reference
  children_ne : ∀ z, z ≠ p → t'.children z = (t.children z).filter (· ∉ new)
  children_same : ∀ z, z ≠ p → (∀ c ∈ new, ¬ t.Under c z) → t'.children z = t.children z
  document : ∀ c ∈ new, ∀ x, t.Within x c → t'.document? x = t.document? p

/-- The nodes `new` stand where `old` was among the children of `p`. The old node has no parent any
more, but belongs to the document it belonged to. -/
structure Replaces (t t' : Tree) (p : NodeId) (new : List NodeId) (old : NodeId) : Prop where
  children_parent : ∃ xs ys, (t.children p).filter (· ∉ new) = xs ++ old :: ys ∧
    t'.children p = xs ++ new ++ ys
  children_ne : ∀ z, z ≠ p → t'.children z = (t.children z).filter (· ∉ new)
  children_same : ∀ z, z ≠ p → (∀ c ∈ new, ¬ t.Under c z) → t'.children z = t.children z
  document : ∀ c ∈ new, ∀ x, t.Within x c → t'.document? x = t.document? p
  old_root : t'.parent? old = none
  old_document : t'.document? old = t.document? old

theorem WellFormed.filter_children (h : t.WellFormed) (hz : ∀ c ∈ new, ¬ t.Under c z) :
    (t.children z).filter (· ∉ new) = t.children z :=
  List.filter_eq_self.mpr fun c hc => by
    simpa using fun hmem => hz c hmem (h.mem_children_iff.mp hc)

theorem Splices.inserts (h : Splices t t' p new reference) (ht : t.WellFormed)
    (hcoherent : t'.Coherent) : Inserts t t' p new reference where
  children_parent := h.children_parent
  children_ne := h.children_ne
  children_same z hz hnew := by rw [h.children_ne z hz, ht.filter_children hnew]
  document _ hc _ hw := h.document_eq hcoherent hc hw

/-- After nodes have come in directly before another, that one leaves. -/
theorem Splices.replaces {d : Draft} {old : NodeId}
    (h : Splices t d.tree p new (some old)) (ht : t.WellFormed) (hd : d.tree.WellFormed)
    (htc : t.Coherent) (hdc : d.tree.Coherent) (hold : t.Under old p) (hnew : old ∉ new) :
    Replaces t (d.detach old).tree p new old := by
  have hinserts := h.inserts ht hdc
  have hunder : d.tree.Under old p := (h.under old p).mpr (by rwa [if_neg hnew])
  have hlist : ∀ z, z ≠ p → (d.detach old).tree.children z = d.tree.children z := fun z hz => by
    rw [Draft.children_detach hd, List.erase_of_not_mem fun hmem =>
      hz ((hd.mem_children_iff.mp hmem).eq hunder)]
  refine ⟨?_, fun z hz => (hlist z hz).trans (hinserts.children_ne z hz), fun z hz hout =>
    (hlist z hz).trans (hinserts.children_same z hz hout), fun m hm x hx => ?_, ?_, ?_⟩
  · have hmem : old ∈ (t.children p).filter (· ∉ new) :=
      List.mem_filter.mpr ⟨ht.mem_children_iff.mpr hold, by simpa using hnew⟩
    obtain ⟨xs, ys, hsplit, hxs⟩ := List.eq_append_cons_of_mem hmem
    refine ⟨xs, ys, hsplit, ?_⟩
    -- The old node stood directly behind what has come in.
    rw [Draft.children_detach hd, hinserts.children_parent, hsplit, spliced_before hxs,
      List.erase_append_right _ (by simp [hxs, hnew]), List.erase_cons_head]
  · rw [Draft.document?_detach hd, hinserts.document m hm x hx]
  · exact Draft.parent?_detach hd
  · rw [Draft.document?_detach hd, hdc.document_eq hunder, h.document_parent,
      htc.document_eq hold]

end Tree

/-! ### Putting nodes into place -/

/-- What must hold around a fragment before its members are looked at. -/
structure Editor.Opens (e : Editor) (t : Tree) (p c : NodeId) : Prop where
  exists_parent : ∃ n, t.node? p = some n ∧ n.kind.acceptsChildren = true
  writable : e.mayWrite t p = .ok ()
  ne : p ≠ c
  not_ancestor : t.isAncestor c p = false

theorem Editor.opens_of_examined {e : Editor} {t : Tree} {p c : NodeId} {u : Unit}
    (h : (do
      e.mayWrite t p
      t.requireContainer p
      if p = c ∨ t.isAncestor c p then throw (.misplaced (.fragmentAround c p)) :
        Except TreeError Unit) = .ok u) : e.Opens t p c := by
  simp only [bind_unit_eq_ok, Tree.requireContainer_eq_ok, ite_throw_eq_ok, not_or,
    Bool.not_eq_true] at h
  obtain ⟨hw, hp, hne, hanc⟩ := h
  exact ⟨hp, hw, hne, hanc⟩

/-- What is put into place for a node: the node itself, or the members of a fragment. -/
def Tree.inserted (t : Tree) (c : NodeId) : List NodeId :=
  match t.node? c with
  | some n => if n.kind.isFragment then n.children else [c]
  | none => []

theorem Tree.inserted_of_fragment {t : Tree} {c : NodeId} {n : Node} (hn : t.node? c = some n)
    (hfragment : n.kind.isFragment = true) : t.inserted c = t.children c := by
  rw [inserted, hn, children_eq hn]
  exact if_pos hfragment

theorem Tree.inserted_of_not_fragment {t : Tree} {c : NodeId} {n : Node} (hn : t.node? c = some n)
    (hfragment : n.kind.isFragment = false) : t.inserted c = [c] := by
  rw [inserted, hn]
  exact if_neg (by simp [hfragment])

namespace Edit

open ContentTree.Tree (Splices)

variable {e : Editor} {d d' : Draft} {p c old : NodeId} {n : Node}
  {reference : Option NodeId} {u : Unit}

theorem run_insertOne_eq_ok : (insertOne p c reference).run e d = (.ok u, d') ↔
    e.Admits d.tree p c reference ∧
      d' = if some c ≠ reference then d.place p c reference else d := by
  rw [insertOne, run_bind_eq_ok]
  simp only [run_check_eq_ok, Editor.admits_eq_ok]
  constructor
  · rintro ⟨_, _, ⟨h, rfl⟩, hrun⟩
    refine ⟨h, ?_⟩
    split at hrun
    · next hne => exact (Prod.mk.inj hrun).2.symm.trans (if_pos hne).symm
    · next heq => exact (Prod.mk.inj hrun).2.symm.trans (if_neg heq).symm
  · rintro ⟨h, rfl⟩
    refine ⟨(), d, ⟨h, rfl⟩, ?_⟩
    split <;> rfl

theorem splices_place (h : d.tree.Sound) (ha : e.Admits d.tree p c reference)
    (hne : some c ≠ reference) :
    Splices d.tree (d.place p c reference).tree p [c] reference :=
  (Tree.puts_place h (Draft.movable_of_admits h.toWellFormed ha) fun r hr =>
    ⟨ha.reference_under r hr, fun heq => hne (heq ▸ hr.symm)⟩).splices h.toWellFormed

/-- The members of a fragment are put into place one after the other. -/
theorem splices_insertAll (hne : p ≠ c) :
    ∀ (members : List NodeId) (d : Draft), d.tree.Sound → members.Nodup →
      (∀ m ∈ members, d.tree.Under m c) →
      (insertAll p reference members).run e d = (.ok u, d') →
      Splices d.tree d'.tree p members reference
  | [], d, _, _, _, hrun => by
    obtain rfl : d = d' := (Prod.mk.inj hrun).2
    exact .nil _ _ _
  | m :: rest, d, hd, hnodup, hunder, hrun => by
    obtain ⟨_, d₁, hfirst, hrest⟩ := run_bind_eq_ok.mp hrun
    obtain ⟨ha, rfl⟩ := run_insertOne_eq_ok.mp hfirst
    obtain ⟨hm, hnodup⟩ := List.nodup_cons.mp hnodup
    -- Members stand below the fragment and the reference does not.
    have hreference : ∀ r, reference = some r → ∀ x ∈ m :: rest, r ≠ x := by
      rintro r hr x hx rfl
      exact hne ((ha.reference_under r hr).eq (hunder r hx))
    have hplaced : some m ≠ reference := fun heq =>
      hreference m heq.symm m List.mem_cons_self rfl
    rw [if_pos hplaced] at hrest
    have hstep := splices_place hd ha hplaced
    refine hstep.trans (splices_insertAll hne rest _ (hd.place (Draft.movable_of_admits
      hd.toWellFormed ha) reference) hnodup (fun x hx => ?_) hrest) (by simpa using hm) ?_
    · have hxm : x ∉ [m] := by
        rintro hmem
        exact hm (List.mem_singleton.mp hmem ▸ hx)
      exact (hstep.under x c).mpr (by
        rw [if_neg hxm]
        exact hunder x (List.mem_cons_of_mem _ hx))
    · intro r hr
      refine ⟨hd.mem_children_iff.mpr (ha.reference_under r hr), ?_, fun hmem => ?_⟩
      · simpa using hreference r hr m List.mem_cons_self
      · exact hreference r hr r (List.mem_cons_of_mem _ hmem) rfl

/-- A fragment that is accepted stands neither at nor above its new parent, and its members are put
into place in its stead. -/
theorem insertAll_of_insert (hn : d.tree.node? c = some n) (hfragment : n.kind.isFragment = true)
    (hrun : (insert p c reference).run e d = (.ok u, d')) :
    e.Opens d.tree p c ∧ (insertAll p reference n.children).run e d = (.ok (), d') := by
  obtain ⟨m, d₁, hcheck, hrun⟩ := run_bind_eq_ok.mp hrun
  obtain ⟨hm, rfl⟩ := run_check_eq_ok.mp hcheck
  obtain rfl := Option.some.inj (hn.symm.trans (Tree.require_eq_ok.mp hm))
  rw [if_pos hfragment] at hrun
  obtain ⟨_, d₁, hcheck, hrun⟩ := run_bind_eq_ok.mp hrun
  obtain ⟨hexamined, rfl⟩ := run_check_eq_ok.mp hcheck
  exact ⟨Editor.opens_of_examined hexamined, hrun⟩

/-- A node other than a fragment is accepted where its place is admitted. -/
theorem insertOne_of_insert (hn : d.tree.node? c = some n) (hfragment : n.kind.isFragment = false)
    (hrun : (insert p c reference).run e d = (.ok u, d')) :
    (insertOne p c reference).run e d = (.ok (), d') := by
  obtain ⟨m, d₁, hcheck, hrun⟩ := run_bind_eq_ok.mp hrun
  obtain ⟨hm, rfl⟩ := run_check_eq_ok.mp hcheck
  obtain rfl := Option.some.inj (hn.symm.trans (Tree.require_eq_ok.mp hm))
  rwa [if_neg (by simp [hfragment])] at hrun

/-- What an insertion is about is there. -/
theorem exists_of_insert (hrun : (insert p c reference).run e d = (.ok u, d')) :
    ∃ n, d.tree.node? c = some n :=
  let ⟨n, _, hcheck, _⟩ := run_bind_eq_ok.mp hrun
  ⟨n, Tree.require_eq_ok.mp (run_check_eq_ok.mp hcheck).1⟩

/-- Nothing is accepted below itself. -/
theorem ne_of_insert (hrun : (insert p c reference).run e d = (.ok u, d')) : p ≠ c := by
  obtain ⟨n, hn⟩ := exists_of_insert hrun
  cases hfragment : n.kind.isFragment with
  | true => exact (insertAll_of_insert hn hfragment hrun).1.ne
  | false => exact (run_insertOne_eq_ok.mp (insertOne_of_insert hn hfragment hrun)).1.ne

/-- Whatever is accepted comes among the children of its new parent. -/
theorem splices_insert (hd : d.tree.Sound) (hrun : (insert p c reference).run e d = (.ok u, d'))
    (hn : d.tree.node? c = some n) (hne : n.kind.isFragment = false → reference ≠ some c) :
    Splices d.tree d'.tree p (d.tree.inserted c) reference := by
  cases hfragment : n.kind.isFragment with
  | true =>
    obtain ⟨hopens, hall⟩ := insertAll_of_insert hn hfragment hrun
    rw [← Tree.children_eq hn] at hall
    rw [Tree.inserted_of_fragment hn hfragment]
    exact splices_insertAll hopens.ne _ d hd (hd.nodup_children c)
      (fun m hm => hd.mem_children_iff.mp hm) hall
  | false =>
    obtain ⟨ha, rfl⟩ := run_insertOne_eq_ok.mp (insertOne_of_insert hn hfragment hrun)
    have hplaced : some c ≠ reference := (hne hfragment).symm
    rw [Tree.inserted_of_not_fragment hn hfragment, if_pos hplaced]
    exact splices_place hd ha hplaced

/-- A node that is put before itself stays where it is. -/
theorem eq_of_insert_self (hrun : (insert p c (some c)).run e d = (.ok u, d'))
    (hn : d.tree.node? c = some n) (hfragment : n.kind.isFragment = false) :
    d' = d ∧ d.tree.Under c p := by
  obtain ⟨ha, hd'⟩ := run_insertOne_eq_ok.mp (insertOne_of_insert hn hfragment hrun)
  exact ⟨hd'.trans (if_neg fun hne => hne rfl), ha.reference_under c rfl⟩

theorem run_insertBefore_eq_ok {a : NodeId} :
    (insertBefore p c reference).run e d = (.ok a, d') ↔
      a = c ∧ (insert p c reference).run e d = (.ok (), d') := by
  rw [insertBefore, run_bind_eq_ok]
  constructor
  · rintro ⟨_, _, hrun, hret⟩
    obtain ⟨hc, rfl⟩ := Prod.mk.inj hret
    exact ⟨(Except.ok.inj hc).symm, hrun⟩
  · rintro ⟨rfl, hrun⟩
    exact ⟨(), d', hrun, rfl⟩

/-- What is put in for a node is not what stands before it. -/
theorem notMem_inserted {r : NodeId} (hd : d.tree.WellFormed) (hr : d.tree.Under r p)
    (hrun : (insert p c (some r)).run e d = (.ok u, d')) (hn : d.tree.node? c = some n)
    (hne : c ≠ r) : r ∉ d.tree.inserted c := by
  cases hfragment : n.kind.isFragment with
  | true =>
    rw [Tree.inserted_of_fragment hn hfragment, hd.mem_children_iff]
    exact fun hrc => (insertAll_of_insert hn hfragment hrun).1.ne (hr.eq hrc)
  | false =>
    rw [Tree.inserted_of_not_fragment hn hfragment]
    simpa using hne.symm

/-- Whatever takes the place of another node stands where that was. -/
theorem replaces_of_replace {a : NodeId} (hd : d.tree.Sound) (hcoherent : d.tree.Coherent)
    (hne : c ≠ old) (hrun : (replace p c old).run e d = (.ok a, d')) :
    a = old ∧ Tree.Replaces d.tree d'.tree p (d.tree.inserted c) old := by
  obtain ⟨_, d₁, hcheck, hrun⟩ := run_bind_eq_ok.mp hrun
  obtain ⟨hexamined, rfl⟩ := run_check_eq_ok.mp hcheck
  obtain ⟨-, hold⟩ := bind_unit_eq_ok.mp hexamined
  rw [Tree.requireChild_eq_ok] at hold
  rw [if_pos hne] at hrun
  obtain ⟨_, d₁, hinsert, hrun⟩ := run_bind_eq_ok.mp hrun
  obtain ⟨hret, rfl⟩ := Prod.mk.inj hrun
  obtain rfl := Except.ok.inj hret
  obtain ⟨n, hn⟩ := exists_of_insert hinsert
  have hchanges : d.Changes e d₁ := by
    have htame := tame_insert e d p c (some old)
    rwa [Tame, hinsert] at htame
  have hsplices : Splices d.tree d₁.tree p (d.tree.inserted c) (some old) :=
    splices_insert hd hinsert hn fun _ heq => hne (Option.some.inj heq).symm
  have hnew : old ∉ d.tree.inserted c := notMem_inserted hd.toWellFormed hold hinsert hn hne
  exact ⟨rfl, hsplices.replaces hd.toWellFormed (hchanges.sound hd).toWellFormed hcoherent
    (hchanges.coherent hd hcoherent) hold hnew⟩

end Edit

end ContentTree
