import ContentTree.Proofs.Merge.Pairing
import Mathlib.Data.List.Pairwise

/-!
# Claims

Pairing claims existing nodes as it goes. No node is claimed twice, and a node that is merely alike
stands below the partner of the parent, so that such nodes never have to leave their parents.

## Main definitions

* `Pairing.AlikeBelow`: a node that is alike stands below the partner of the parent.
* `Pairing.Paired`: what pairing several targets one after the other says.

## Main results

* `Pairing.paired_pairAll`, `Pairing.paired_ofTarget`: pairing says so.
-/

namespace ContentTree.Merge

namespace Pairing

variable {p q r : Pairing} {ps qs : List Pairing} {t : Target} {ts us : List Target} {b : Branch}
  {k : BranchKey} {l : Label} {c : Content} {parent : Option Branch} {x : NodeId}
  {spots : List Spot} {claimed claimed' claimed'' : Claimed}

theorem eq_of_mem_of_disjoint {α : Type} {f : Pairing → List α} {a : α}
    (h : ps.Pairwise fun q r => (f q).Disjoint (f r)) (hq : q ∈ ps) (hr : r ∈ ps) (ha : a ∈ f q)
    (ha' : a ∈ f r) : q = r := by
  by_contra hne
  have : Std.Symm fun q r => (f q).Disjoint (f r) := ⟨fun _ _ h => h.symm⟩
  exact h.forall hq hr hne ha ha'

theorem mem_claim (ids : List NodeId) (claimed : Claimed) :
    x ∈ ((claim ids).run claimed).2 ↔ x ∈ claimed ∨ x ∈ ids := by
  have hfold : ∀ claimed : Claimed, x ∈ ids.foldl (·.insert ·) claimed ↔ x ∈ claimed ∨ x ∈ ids := by
    induction ids with
    | nil => simp
    | cons id ids ih =>
      intro claimed
      rw [List.foldl_cons, ih, Std.ExtTreeSet.mem_insert, Std.compare_eq_iff_eq, List.mem_cons]
      grind
  exact hfold claimed

theorem unclaimed_iff : unclaimed claimed b = true ↔ ∀ x ∈ b.ids, x ∉ claimed := by
  simp only [unclaimed, List.all_eq_true, Bool.not_eq_true', Bool.eq_false_iff, ne_eq,
    Std.ExtTreeSet.contains_iff_mem]

theorem exists_spot_of_findSame {of : Option NodeId} (h : findSame spots of claimed t = some b) :
    (∃ s ∈ spots, s.branch = b) ∧ (∀ x ∈ b.ids, x ∉ claimed) ∧ t.equals b = true := by
  obtain ⟨s, hs, rfl⟩ := Option.map_eq_some_iff.mp h
  have husable : s ∈ spots ∧ (unclaimed claimed s.branch && t.equals s.branch) = true := by
    rcases Option.or_eq_some_iff.mp hs with hs | ⟨-, hs⟩
    · have := List.find?_some hs
      exact ⟨List.mem_of_find?_eq_some hs, by simp_all⟩
    · have := List.find?_some hs
      exact ⟨List.mem_of_find?_eq_some hs, by simp_all⟩
  obtain ⟨hfree, heq⟩ := Bool.and_eq_true_iff.mp husable.2
  exact ⟨⟨s, husable.1, rfl⟩, unclaimed_iff.mp hfree, heq⟩

/-- A node that is alike stands below the partner of the parent, and may be the partner of a node of
that kind. -/
def AlikeBelow (parent : Option Branch) (p : Pairing) : Prop :=
  ∀ k c b ps, p = alike k c b ps →
    ∃ a, parent = some a ∧ b ∈ a.children ∧ compatible b.node.kind c.kind = true

theorem exists_of_findAlike (h : findAlike parent claimed c.kind = some b) :
    b.id ∉ claimed ∧ ∃ a, parent = some a ∧ b ∈ a.children ∧
      compatible b.node.kind c.kind = true := by
  obtain ⟨a, ha, hb⟩ := Option.bind_eq_some_iff.mp h
  have hfind := List.find?_some hb
  simp only [Bool.and_eq_true, Bool.not_eq_true', Bool.eq_false_iff, ne_eq,
    Std.ExtTreeSet.contains_iff_mem] at hfind
  exact ⟨hfind.1, a, ha, List.mem_of_find?_eq_some hb, hfind.2⟩

theorem compatible_iff {k k' : Kind} :
    compatible k k' = true ↔ k.same k' = true ∧ k.tag? = k'.tag? := by
  rw [compatible, Bool.and_eq_true, decide_eq_true_eq]

/-- Pairing targets one after the other. -/
structure Paired (spots : List Spot) (claimed claimed' : Claimed) (ts : List Target)
    (ps : List Pairing) : Prop where
  follows : List.Forall₂ Follows ps ts
  alike_below : ∀ q ∈ allItems ps, ∀ r ∈ q.children, r.AlikeBelow q.existing?
  same_spot : ∀ q ∈ allItems ps, ∀ t b, q = same t b →
    (∃ s ∈ spots, s.branch = b) ∧ t.equals b = true
  disjoint : (allItems ps).Pairwise fun q r => q.own.Disjoint r.own
  unclaimed : ∀ q ∈ allItems ps, ∀ x ∈ q.own, x ∉ claimed
  mem_iff : ∀ x, x ∈ claimed' ↔ x ∈ claimed ∨ ∃ q ∈ allItems ps, x ∈ q.own

theorem Paired.nil : Paired spots claimed claimed [] [] where
  follows := .nil
  alike_below := by simp [allItems, items.listItems]
  same_spot := by simp [allItems, items.listItems]
  disjoint := .nil
  unclaimed := by simp [allItems, items.listItems]
  mem_iff := by simp [allItems, items.listItems]

/-- What comes later claims what is still unclaimed. -/
theorem Paired.append (h : Paired spots claimed claimed' ts ps)
    (h' : Paired spots claimed' claimed'' us qs) :
    Paired spots claimed claimed'' (ts ++ us) (ps ++ qs) where
  follows := List.rel_append h.follows h'.follows
  alike_below q hq := by
    rw [allItems_append, List.mem_append] at hq
    exact hq.elim (h.alike_below q) (h'.alike_below q)
  same_spot q hq := by
    rw [allItems_append, List.mem_append] at hq
    exact hq.elim (h.same_spot q) (h'.same_spot q)
  disjoint := by
    rw [allItems_append, List.pairwise_append]
    refine ⟨h.disjoint, h'.disjoint, fun q hq r hr x hx hx' => ?_⟩
    exact h'.unclaimed r hr x hx' ((h.mem_iff x).mpr (.inr ⟨q, hq, hx⟩))
  unclaimed q hq x hx := by
    rw [allItems_append, List.mem_append] at hq
    rcases hq with hq | hq
    · exact h.unclaimed q hq x hx
    · exact fun hclaimed => h'.unclaimed q hq x hx ((h.mem_iff x).mpr (.inl hclaimed))
  mem_iff x := by
    rw [h'.mem_iff, h.mem_iff, allItems_append]
    simp only [List.mem_append, or_and_right, exists_or, or_assoc]

/-- A node claims what it owns, and then its children are paired. -/
theorem Paired.node (hp : p.isSame = false) (hfollows : p.key = l.key ∧ p.content = c)
    (hfree : ∀ x ∈ p.own, x ∉ claimed) (hclaim : ∀ x, x ∈ claimed' ↔ x ∈ claimed ∨ x ∈ p.own)
    (h : Paired spots claimed' claimed'' ts p.children)
    (hbelow : ∀ r ∈ p.children, r.AlikeBelow p.existing?) :
    Paired spots claimed claimed'' [.mk l c ts] [p] where
  follows := .cons ((follows_iff hp).mpr ⟨hfollows.1, hfollows.2, h.follows⟩) .nil
  alike_below q hq := by
    rw [allItems_singleton, items_eq] at hq
    rcases List.mem_cons.mp hq with rfl | hq
    · exact hbelow
    · exact h.alike_below q hq
  same_spot q hq t b heq := by
    rw [allItems_singleton, items_eq] at hq
    rcases List.mem_cons.mp hq with rfl | hq
    · exact nomatch heq ▸ hp
    · exact h.same_spot q hq t b heq
  disjoint := by
    rw [allItems_singleton, items_eq, List.pairwise_cons]
    refine ⟨fun q hq x hx hx' => ?_, h.disjoint⟩
    exact h.unclaimed q hq x hx' ((hclaim x).mpr (.inr hx))
  unclaimed q hq x hx := by
    rw [allItems_singleton, items_eq] at hq
    rcases List.mem_cons.mp hq with rfl | hq
    · exact hfree x hx
    · exact fun hclaimed => h.unclaimed q hq x hx ((hclaim x).mpr (.inl hclaimed))
  mem_iff x := by
    rw [h.mem_iff, hclaim, allItems_singleton, items_eq, or_assoc]
    simp

theorem Paired.same (hspot : ∃ s ∈ spots, s.branch = b) (hfree : ∀ x ∈ b.ids, x ∉ claimed)
    (heq : t.equals b = true) (hclaim : ∀ x, x ∈ claimed' ↔ x ∈ claimed ∨ x ∈ b.ids) :
    Paired spots claimed claimed' [t] [same t b] where
  follows := .cons rfl .nil
  alike_below q hq := by
    obtain rfl := List.mem_singleton.mp hq
    exact fun _ hr => nomatch hr
  same_spot q hq t' b' h := by
    obtain rfl := List.mem_singleton.mp hq
    obtain ⟨rfl, rfl⟩ := Pairing.same.inj h
    exact ⟨hspot, heq⟩
  disjoint := List.pairwise_singleton _ _
  unclaimed q hq := List.mem_singleton.mp hq ▸ hfree
  mem_iff x := by
    rw [hclaim, show allItems [Pairing.same t b] = [Pairing.same t b] from rfl]
    simp [own]

/-! ### Pairing targets -/

theorem pairAll_cons (t : Target) (ts : List Target) (claimed : Claimed) :
    (pairAll spots parent (t :: ts)).run claimed =
      (((pair spots parent t).run claimed).1 ::
          ((pairAll spots parent ts).run ((pair spots parent t).run claimed).2).1,
        ((pairAll spots parent ts).run ((pair spots parent t).run claimed).2).2) := rfl

theorem pair_mk (l : Label) (c : Content) (ts : List Target) (claimed : Claimed) :
    (pair spots parent (.mk l c ts)).run claimed =
      match findSame spots (parent.map Branch.id) claimed (.mk l c ts) with
      | some b => (same (.mk l c ts) b, ((claim b.ids).run claimed).2)
      | none =>
        match findAlike parent claimed c.kind with
        | some b =>
          let below := (pairAll spots (some b) ts).run ((claim [b.id]).run claimed).2
          (alike l.key c b below.1, below.2)
        | none =>
          let below := (pairAll spots none ts).run claimed
          (fresh l.key c below.1, below.2) := by
  rw [pair]
  simp only [StateT.run_bind, StateT.run_get, pure_bind]
  cases findSame spots (parent.map Branch.id) claimed (.mk l c ts) with
  | some b => rfl
  | none =>
    simp only [StateT.run_bind, StateT.run_get, pure_bind]
    cases findAlike parent claimed c.kind <;> rfl

theorem paired_pairAll_of_pair (ts : List Target)
    (hpair : ∀ t ∈ ts, ∀ parent claimed,
      Paired spots claimed ((pair spots parent t).run claimed).2 [t]
          [((pair spots parent t).run claimed).1] ∧
        ((pair spots parent t).run claimed).1.AlikeBelow parent) : ∀ parent claimed,
    Paired spots claimed ((pairAll spots parent ts).run claimed).2 ts
        ((pairAll spots parent ts).run claimed).1 ∧
      ∀ p ∈ ((pairAll spots parent ts).run claimed).1, p.AlikeBelow parent := by
  induction ts with
  | nil => exact fun _ _ => ⟨.nil, fun _ hp => nomatch hp⟩
  | cons t ts ih =>
    intro parent claimed
    obtain ⟨hpaired, hbelow⟩ := hpair t List.mem_cons_self parent claimed
    obtain ⟨hpaired', hbelow'⟩ :=
      ih (fun u hu => hpair u (List.mem_cons_of_mem _ hu)) parent
        ((pair spots parent t).run claimed).2
    rw [pairAll_cons]
    exact ⟨hpaired.append hpaired', List.forall_mem_cons.mpr ⟨hbelow, hbelow'⟩⟩

theorem paired_pair (spots : List Spot) (t : Target) : ∀ parent claimed,
    Paired spots claimed ((pair spots parent t).run claimed).2 [t]
        [((pair spots parent t).run claimed).1] ∧
      ((pair spots parent t).run claimed).1.AlikeBelow parent := by
  induction t using Labelled.inductionOn with
  | mk l c ts ih =>
    intro parent claimed
    rw [pair_mk]
    cases hsame : findSame spots (parent.map Branch.id) claimed (.mk l c ts) with
    | some b =>
      obtain ⟨hspot, hfree, heq⟩ := exists_spot_of_findSame hsame
      refine ⟨.same hspot hfree heq fun x => mem_claim b.ids claimed, ?_⟩
      exact fun _ _ _ _ h => nomatch h
    | none =>
      cases halike : findAlike parent claimed c.kind with
      | some b =>
        obtain ⟨hfree, hbelow⟩ := exists_of_findAlike halike
        obtain ⟨hpaired, hbelow'⟩ := paired_pairAll_of_pair ts ih (some b)
          ((claim [b.id]).run claimed).2
        refine ⟨.node rfl ⟨rfl, rfl⟩ ?_ (fun x => mem_claim [b.id] claimed) hpaired hbelow', ?_⟩
        · exact fun x hx => List.mem_singleton.mp hx ▸ hfree
        · rintro _ _ _ _ ⟨⟩
          exact hbelow
      | none =>
        obtain ⟨hpaired, hbelow⟩ := paired_pairAll_of_pair ts ih none claimed
        refine ⟨.node rfl ⟨rfl, rfl⟩ (by simp [own]) (by simp [own]) hpaired hbelow, ?_⟩
        exact fun _ _ _ _ h => nomatch h

/-- Pairing targets says of them what `Paired` says, and the nodes that are alike stand below the
given partner of their parent. -/
theorem paired_pairAll (spots : List Spot) (ts : List Target) : ∀ parent claimed,
    Paired spots claimed ((pairAll spots parent ts).run claimed).2 ts
        ((pairAll spots parent ts).run claimed).1 ∧
      ∀ p ∈ ((pairAll spots parent ts).run claimed).1, p.AlikeBelow parent :=
  paired_pairAll_of_pair ts fun t _ => paired_pair spots t

/-- Pairing a target with a branch, the roots are paired first. -/
theorem paired_ofTarget (e : Branch) (t : Target) :
    Paired (Merge.spots e) ∅ (ofTarget e t).2 [t] [(ofTarget e t).1] := by
  obtain ⟨l, c, ts⟩ := t
  obtain ⟨hpaired, hbelow⟩ := paired_pairAll (Merge.spots e) ts (some e) ((claim [e.id]).run ∅).2
  exact .node rfl ⟨rfl, rfl⟩ (by simp) (fun x => mem_claim [e.id] ∅) hpaired hbelow

end Pairing

end ContentTree.Merge
