import ContentTree.Proofs.Merge.Fingerprint
import ContentTree.Proofs.Merge.Plan
import ContentTree.Proofs.Session.Reach

/-!
# Empty plans

A plan has nothing to do exactly where the branch is like the target already. One direction follows
the search: of the children of the root each is found in its turn, because it matches and whatever
would be found before it is taken. The other direction follows the pairing: where nothing is
deleted, moved or updated, the children of every node are the partners of the children of the
target, in their order.

## Main results

* `Pairing.pairAll_of_matches`: children that match are paired one by one.
* `Plan.operations_eq_nil_of_alike`, `Plan.equals_of_operations_eq_nil`: the two directions.
* `plan_operations_eq_nil_iff`: a plan is empty if and only if the branches are alike.
-/

namespace ContentTree.Merge

variable {t u : Tree} {b c d e : Branch} {x : NodeId} {known : Std.ExtTreeMap NodeId UInt32}
  {cs ds : List Branch}

/-! ### The spots of the children -/

theorem parent_mem_ids {s : Spot} (hs : s ∈ spotsWith known b) : s.parent ∈ b.ids := by
  induction b with
  | mk n cs ih =>
    rw [spotsWith] at hs
    rw [Branch.ids_mk, List.mem_cons, List.mem_flatMap]
    obtain ⟨c, hc, rfl | hs⟩ := mem_below hs
    · exact .inl rfl
    · exact .inr ⟨c, hc, ih c hc hs⟩

/-- The spots that have the root for a parent are those of the children, in their order. -/
theorem filter_spotsWith (hb : b.ids.Nodup) : (spotsWith known b).filter (·.parent = b.id) =
    b.children.map fun c => ⟨b.id, known.getD c.id 0, c⟩ := by
  obtain ⟨n, cs⟩ := b
  rw [Branch.ids_mk, List.nodup_cons] at hb
  change (spotsWith.below known n.id cs).filter (·.parent = n.id) = cs.map _
  have hroot := hb.1
  clear hb
  induction cs with
  | nil => rfl
  | cons c cs ih =>
    rw [List.flatMap_cons, List.mem_append, not_or] at hroot
    -- Further down the parents stand in the branch of the child, where the root does not.
    have hnone : (spotsWith known c).filter (·.parent = n.id) = [] := by
      refine List.filter_eq_nil_iff.mpr fun s hs heq => hroot.1 ?_
      exact of_decide_eq_true heq ▸ parent_mem_ids hs
    rw [spotsWith.below, List.filter_cons_of_pos (by simp), List.filter_append, hnone,
      ih hroot.2, List.nil_append, List.map_cons]
    rfl

/-! ### Pairing a branch with a target like it -/

namespace Pairing

variable {claimed : Claimed} {w : Target} {ws : List Target}

/-- Where all children before it are taken, a child that matches is the one that is found. -/
theorem findSame_eq (ht : t.WellFormed) (he : e.Shows t) (hchildren : e.children = cs ++ c :: ds)
    (hclaimed : ∀ d ∈ cs, d.id ∈ claimed) (hfree : ∀ x ∈ c.ids, x ∉ claimed) (hw : w.Matches c) :
    findSame (spots e) (some e.id) claimed w = some c := by
  have hc : c ∈ e.children := by simp [hchildren]
  have hknown : (Fingerprint.ofNodes e.nodes).getD c.id 0 = Fingerprint.ofBranch c := by
    refine Fingerprint.getD_ofNodes ht he (he.of_mem_children hc) ?_
    exact (he.mem_ids_iff ht).mpr (.single (he.under_of_mem_children ht hc))
  have hunclaimed : unclaimed claimed c = true := unclaimed_iff.mpr hfree
  have htaken : ∀ d ∈ cs, unclaimed claimed d = false := fun d hd =>
    Bool.eq_false_iff.mpr fun h => unclaimed_iff.mp h d.id d.id_mem_ids (hclaimed d hd)
  have hfind : ((spots e).filter (·.parent = e.id)).find? (fun s =>
      s.fingerprint = w.label.fingerprint && unclaimed claimed s.branch && w.equals s.branch) =
        some ⟨e.id, Fingerprint.ofBranch c, c⟩ := by
    rw [spots, filter_spotsWith (he.nodup_ids ht), hchildren, List.map_append, List.map_cons,
      hknown, List.find?_append, List.find?_eq_none.mpr, Option.none_or, List.find?_cons_of_pos]
    · simp [hw.fingerprint, hw.equals, hunclaimed]
    · simp only [List.mem_map]
      rintro _ ⟨d, hd, rfl⟩
      simp [htaken d hd]
  simp only [List.find?_filter, Bool.decide_and, Bool.decide_eq_true] at hfind
  simp only [findSame, Option.some.injEq, hfind, Option.some_or, Option.map_some]

theorem pair_eq_same (h : findSame (spots e) (some e.id) claimed w = some c) :
    (pair (spots e) (some e) w).run claimed = (same w c, ((claim c.ids).run claimed).2) := by
  obtain ⟨l, content, ws⟩ := w
  rw [pair_mk, Option.map_some, h]

/-- Targets that match the further children of a branch are paired with them one by one. -/
theorem pairAll_of_matches (ht : t.WellFormed) (he : e.Shows t)
    (hall : List.Forall₂ Target.Matches ws ds) : ∀ cs claimed, e.children = cs ++ ds →
      (∀ c ∈ cs, c.id ∈ claimed) → (∀ x ∈ ds.flatMap Branch.ids, x ∉ claimed) →
        List.Forall₂ (fun p d => ∃ w, p = same w d)
          ((pairAll (spots e) (some e) ws).run claimed).1 ds := by
  have hnodup := he.nodup_ids ht
  rw [Branch.ids_eq, List.nodup_cons] at hnodup
  induction hall with
  | nil => exact fun _ _ _ _ _ => .nil
  | @cons w d ws ds hwd _ ih =>
    intro cs claimed hchildren hclaimed hfree
    rw [List.flatMap_cons] at hfree
    have hpair := pair_eq_same <| findSame_eq ht he hchildren hclaimed
      (fun x hx => hfree x (List.mem_append_left _ hx)) hwd
    rw [pairAll_cons, hpair]
    -- The child is claimed now, and the nodes of those after it are still free.
    refine .cons ⟨w, rfl⟩ (ih (cs ++ [d]) _ (by simpa using hchildren) ?_ ?_)
    · intro c hc
      rcases List.mem_append.mp hc with hc | hc
      · exact (mem_claim _ _).mpr (.inl (hclaimed c hc))
      · exact (mem_claim _ _).mpr (.inr (List.mem_singleton.mp hc ▸ c.id_mem_ids))
    · intro x hx hclaim
      rw [hchildren, List.flatMap_append, List.flatMap_cons] at hnodup
      have hdisjoint := (List.nodup_append.mp (List.nodup_append.mp hnodup.2).2.1).2.2
      rcases (mem_claim _ _).mp hclaim with h | h
      · exact hfree x (List.mem_append_right _ hx) h
      · exact hdisjoint x h x hx rfl

/-- A branch that is like the target as it stands is paired child by child. -/
theorem ofTarget_of_matches (ht : t.WellFormed) (he : e.Shows t)
    (hall : List.Forall₂ Target.Matches w.children e.children) :
    List.Forall₂ (fun p d => ∃ w, p = same w d) (ofTarget e w).1.children e.children := by
  have hroot := he.nodup_ids ht
  rw [Branch.ids_eq, List.nodup_cons] at hroot
  refine pairAll_of_matches ht he hall [] ((claim [e.id]).run ∅).2 rfl
    (fun c hc => nomatch hc) fun x hx hclaim => hroot.1 ?_
  obtain rfl : x = e.id := by simpa using (mem_claim _ _).mp hclaim
  exact hx

end Pairing

namespace Plan

open Pairing (Covers)

variable {p q r : Pairing} {claimed : Pairing.Claimed} {root : NodeId} {w : Target}

/-! ### Nothing to be done -/

theorem operations_eq_nil_iff : (ofPairing e p claimed).operations = [] ↔
    unpaired claimed e = [] ∧ creates p = [] ∧ (∀ q ∈ p.items, inOrderAt claimed q = true) ∧
      ∀ q ∈ p.items, updatesAt q = [] := by
  have hdeletes : deletes claimed e = [] ↔ unpaired claimed e = [] := by
    rw [deletes, List.map_eq_nil_iff, ← List.length_eq_zero_iff, List.length_mergeSort,
      List.length_eq_zero_iff]
  have hmoves : ∀ q, movesAt claimed q = [] ↔ inOrderAt claimed q = true := by
    intro q
    rw [movesAt]
    split
    · next h => simp [h]
    · next h =>
      refine iff_of_false (fun hnil => h ?_) h
      -- Only a node without children would have no moves, and no children are in order.
      have hchildren : q.children = [] := by
        cases hq : q.children with
        | nil => rfl
        | cons r rs => simp [hq, movesOf] at hnil
      rw [inOrderAt, hchildren]
      cases q.existing? <;> rfl
  simp only [ofPairing, List.append_eq_nil_iff, hdeletes, moves_eq, updates_eq,
    List.flatMap_eq_nil_iff, hmoves, and_assoc]

theorem inOrderAt_of_existing? (hb : q.existing? = some b) : inOrderAt claimed q = true ↔
    q.children = [] ∨ q.children.map Pairing.partner? =
      ((b.children.map Branch.id).filter claimed.contains).map some := by
  rw [inOrderAt, hb, Option.map_some, inOrder, Bool.or_eq_true, List.isEmpty_iff,
    decide_eq_true_eq]

theorem unpaired_eq_nil (ht : t.WellFormed) (hb : b.Shows t) (h : ∀ x ∈ b.ids, x ∈ claimed) :
    unpaired claimed b = [] := by
  refine List.eq_nil_iff_forall_not_mem.mpr fun x hx => ?_
  obtain ⟨hfree, hbelow⟩ := below_of_mem_unpaired ht hb hx
  exact hfree (h x ((hb.mem_ids_iff ht).mpr hbelow.within))

theorem map_partner?_of_same {ps : List Pairing}
    (h : List.Forall₂ (fun p c => ∃ w, p = Pairing.same w c) ps cs) :
    ps.map Pairing.partner? = (cs.map Branch.id).map some := by
  induction h with
  | nil => rfl
  | cons hpc _ ih =>
    obtain ⟨w, rfl⟩ := hpc
    exact congrArg _ ih

/-- Where the branch is like the target as it stands, nothing is left to be done. -/
theorem operations_eq_nil_of_alike (ht : t.WellFormed) (he : e.Shows t) (halike : b.Alike e) :
    (ofBranches e b).operations = [] := by
  have hequals := Labelled.equals_of_alike (Target.equals_ofBranch b) halike
  have hsame := Pairing.ofTarget_of_matches ht he (Target.matches_children halike)
  have hcovers := Pairing.covers_ofTarget ht he (Target.ofBranch b)
  set p := (Pairing.ofTarget e (Target.ofBranch b)).1 with hp
  have hitems : ∀ q ∈ p.items, q = p ∨ ∃ w c, q = .same w c := by
    intro q hq
    rcases Pairing.mem_items.mp hq with rfl | ⟨r, hr, hq⟩
    · exact .inl rfl
    · obtain ⟨c, -, w, rfl⟩ := exists_of_forall₂ hsame hr
      exact .inr ⟨w, c, List.mem_singleton.mp hq⟩
  have hclaimed : ∀ x ∈ e.ids, x ∈ (Pairing.ofTarget e (Target.ofBranch b)).2 := by
    intro x hx
    rw [hcovers.mem_claimed]
    rw [Branch.ids_eq, List.mem_cons, List.mem_flatMap] at hx
    rcases hx with rfl | ⟨c, hc, hx⟩
    · exact ⟨p, p.mem_items_self, Pairing.mem_own_of_partner? hcovers.root_alike.2⟩
    · obtain ⟨r, hr, w, rfl⟩ := exists_of_forall₂ hsame.flip hc
      exact ⟨_, Pairing.mem_items.mpr (.inr ⟨_, hr, Pairing.mem_items_self _⟩), hx⟩
  change (ofPairing e p (Pairing.ofTarget e (Target.ofBranch b)).2).operations = []
  refine operations_eq_nil_iff.mpr
    ⟨unpaired_eq_nil ht he hclaimed, ?creates, fun q hq => ?moves, fun q hq => ?updates⟩
  case creates =>
    refine List.eq_nil_iff_forall_not_mem.mpr fun o ho => ?_
    obtain ⟨q, hq, rs, r, ps, hchildren, hfresh, -⟩ := exists_of_mem_creates ho
    have hr : r ∈ p.items := Pairing.mem_items_of_mem_children (by simp [hchildren]) hq
    rcases hitems r hr with rfl | ⟨w, c, rfl⟩
    · exact nomatch hcovers.root_alike.2.symm.trans (Pairing.partner?_eq_none_iff.mpr hfresh)
    · exact nomatch hfresh
  case moves =>
    rcases hitems q hq with rfl | ⟨w, c, rfl⟩
    · have hcurrent : (e.children.map Branch.id).filter
          (Pairing.ofTarget e (Target.ofBranch b)).2.contains = e.children.map Branch.id := by
        refine List.filter_eq_self.mpr fun x hx => ?_
        obtain ⟨c, hc, rfl⟩ := List.mem_map.mp hx
        refine Std.ExtTreeSet.contains_iff_mem.mpr (hclaimed c.id ?_)
        rw [Branch.ids_eq]
        exact List.mem_cons_of_mem _ (List.mem_flatMap.mpr ⟨c, hc, c.id_mem_ids⟩)
      refine (inOrderAt_of_existing? rfl).mpr (.inr ?_)
      rw [hcurrent, map_partner?_of_same hsame]
    · rfl
  case updates =>
    rcases hitems q hq with rfl | ⟨w, c, rfl⟩
    · exact if_pos (Labelled.comparable_content hequals)
    · rfl

/-! ### Plans with nothing to be done -/

theorem existing?_eq (ht : t.WellFormed) (h : Covers t root claimed p) (hr : r ∈ p.items)
    (hd : d.Shows t) (hpartner : r.partner? = some d.id) : r.existing? = some d := by
  rw [Pairing.partner?_eq] at hpartner
  obtain ⟨b, hb, hid⟩ := Option.map_eq_some_iff.mp hpartner
  have hbranch := ht.branch?_eq_some_iff.mpr ⟨hid, (h.shows r hr b hb).1⟩
  rw [hb, Option.some.inj (hbranch.symm.trans (ht.branch?_eq_some_iff.mpr ⟨rfl, hd⟩))]

/-- Where the children of a node stand in order, their partners stand below that of the node. -/
theorem under_of_inOrderAt (ht : t.WellFormed) (h : Covers t root claimed p) (hq : q ∈ p.items)
    (horder : inOrderAt claimed q = true) (hr : r ∈ q.children) (hx : r.partner? = some x) :
    ∃ b, q.existing? = some b ∧ t.Under x b.id := by
  cases hb : q.existing? with
  | none =>
    rw [inOrderAt, hb] at horder
    have hnone := List.all_eq_true.mp horder r hr
    rw [hx] at hnone
    exact nomatch hnone
  | some b =>
    refine ⟨b, rfl, ?_⟩
    rcases (inOrderAt_of_existing? hb).mp horder with hnil | hmap
    · exact nomatch hnil ▸ hr
    · have hmem := List.mem_map_of_mem (f := Pairing.partner?) hr
      rw [hmap, hx] at hmem
      obtain ⟨y, hy, heq⟩ := List.mem_map.mp hmem
      obtain rfl := Option.some.inj heq
      obtain ⟨c, hc, rfl⟩ := List.mem_map.mp (List.mem_of_mem_filter hy)
      exact (h.shows q hq b hb).1.under_of_mem_children ht hc

/-- Where nobody is deleted and everybody stands in order, the partners of the children of a node
are all the children of its partner. -/
theorem map_partner?_children (ht : t.WellFormed) (h : Covers t root claimed p)
    (he : p.existing? = some e) (hdeletes : unpaired claimed e = [])
    (horder : ∀ q ∈ p.items, inOrderAt claimed q = true) (hq : q ∈ p.items)
    (hsame : q.isSame = false) (hb : q.existing? = some b) :
    q.children.map Pairing.partner? = (b.children.map Branch.id).map some := by
  obtain ⟨hshow, hwithin⟩ := h.shows q hq b hb
  have hpartner : q.partner? = some b.id := by rw [Pairing.partner?_eq, hb, Option.map_some]
  have hchild : ∀ c ∈ b.children, c.id ∈ claimed ∧ ∃ r ∈ p.items, r.partner? = some c.id := by
    intro c hc
    have hunder := hshow.under_of_mem_children ht hc
    rcases mem_unpaired_or_partner ht h he hq hsame hpartner hunder with hx | hx
    · exact nomatch hdeletes ▸ hx
    · exact hx
  have hcurrent : (b.children.map Branch.id).filter claimed.contains =
      b.children.map Branch.id := by
    refine List.filter_eq_self.mpr fun x hx => ?_
    obtain ⟨c, hc, rfl⟩ := List.mem_map.mp hx
    exact Std.ExtTreeSet.contains_iff_mem.mpr (hchild c hc).1
  rcases (inOrderAt_of_existing? hb).mp (horder q hq) with hnil | hmap
  · -- A child of the partner would be the partner of somebody else's child, and that child would
    -- not stand in order.
    suffices hnone : b.children = [] by simp [hnil, hnone]
    refine List.eq_nil_iff_forall_not_mem.mpr fun c hc => ?_
    have hunder := hshow.under_of_mem_children ht hc
    obtain ⟨r, hr, hrc⟩ := (hchild c hc).2
    rcases Pairing.eq_or_exists_parent hr with rfl | ⟨s, hs, hrs⟩
    · have hroot : c.id = root := Option.some.inj (hrc.symm.trans h.root_alike.2)
      exact ht.acyclic root (.head' (hroot ▸ hunder) hwithin)
    · obtain ⟨a, ha, hunder'⟩ := under_of_inOrderAt ht h hs (horder s hs) hrs hrc
      have hpartner' : s.partner? = some b.id := by
        rw [Pairing.partner?_eq, ha, Option.map_some, hunder.eq hunder']
      obtain rfl := h.own_injective s hs q hq b.id (Pairing.mem_own_of_partner? hpartner')
        (Pairing.mem_own_of_partner? hpartner)
      exact nomatch hnil ▸ hrs
  · rw [hmap, hcurrent]

/-- Children correspond to the targets one by one if their partners do. -/
theorem forall₂_equals {qs : List Pairing} {ws : List Target}
    (hall : List.Forall₂ Pairing.Follows qs ws)
    (hmap : qs.map Pairing.partner? = (cs.map Branch.id).map some)
    (hequals : ∀ r ∈ qs, ∀ w, ∀ c ∈ cs, r.Follows w → r.partner? = some c.id → w.equals c = true) :
    List.Forall₂ (fun w c => Labelled.equals w c = true) ws cs := by
  induction hall generalizing cs with
  | nil =>
    obtain rfl : cs = [] := by simpa using hmap
    exact .nil
  | cons hrw _ ih =>
    cases cs with
    | nil => exact nomatch hmap
    | cons c cs =>
      obtain ⟨hrc, hmap⟩ := List.cons.inj hmap
      refine .cons (hequals _ List.mem_cons_self _ c List.mem_cons_self hrw hrc) (ih hmap ?_)
      exact fun r hr w d hd => hequals r (List.mem_cons_of_mem _ hr) w d (List.mem_cons_of_mem _ hd)

/-- Where nothing is to be done, every node is like its target already. -/
theorem equals_of_operations_eq_nil (ht : t.WellFormed) (h : Covers t root claimed p)
    (he : p.existing? = some e) (hnil : (ofPairing e p claimed).operations = []) :
    ∀ q ∈ p.items, ∀ w b, q.Follows w → q.existing? = some b → w.equals b = true := by
  obtain ⟨hdeletes, -, horder, hupdates⟩ := operations_eq_nil_iff.mp hnil
  intro q
  induction q with
  | node q ih =>
    intro hq w b hfollows hb
    cases q with
    | same v b' =>
      obtain rfl : v = w := hfollows
      obtain rfl := Option.some.inj hb
      exact h.equals _ hq v b' rfl
    | alike k content b' qs =>
      obtain rfl := Option.some.inj hb
      have hmap := map_partner?_children ht h he hdeletes horder hq rfl rfl
      have hshow := (h.shows _ hq b' rfl).1
      have hcontent : content.comparable = b'.content.comparable := by
        simpa [updatesAt] using hupdates _ hq
      obtain ⟨l, content', ws⟩ := w
      obtain ⟨k', cs⟩ := b'
      obtain ⟨-, rfl, hall⟩ := (Pairing.follows_iff rfl).mp hfollows
      refine Labelled.equals_mk.mpr
        ⟨hcontent, forall₂_equals hall hmap fun r hr w c hc hrw hrc => ?_⟩
      have hitem := Pairing.mem_items_of_mem_children hr hq
      exact ih r hr hitem w c hrw (existing?_eq ht h hitem (hshow.of_mem_children hc) hrc)
    | fresh k content qs => exact nomatch hb

end Plan

/-- A plan has no operations if and only if the branch is like the target already: the same numbers
of children in the same order everywhere, and the same content as far as it counts in a comparison
at corresponding nodes. How often a branch occurs in either tree makes no difference, and neither
does whether the checksums of different branches coincide. -/
theorem plan_operations_eq_nil_iff {root targetRoot : NodeId} {n m : Node} (ht : t.WellFormed)
    (hu : u.WellFormed) (hroot : t.node? root = some n) (htarget : u.node? targetRoot = some m)
    (hkind : n.kind.same m.kind = true) :
    ∃ p e w, plan t root u targetRoot = .ok p ∧ t.branch? root = some e ∧
      u.branch? targetRoot = some w ∧ (p.operations = [] ↔ e.Alike w) := by
  obtain ⟨e, he, rfl, hshow⟩ := ht.exists_branch hroot
  obtain ⟨w, hw, rfl, -⟩ := hu.exists_branch htarget
  refine ⟨Plan.ofBranches e w, e, w, ?_, he, hw, fun hnil => ?_, fun halike => ?_⟩
  · simp only [plan, requireBranch, he, hw, bind, Except.bind, hkind, if_true]
    rfl
  · have hcovers := Pairing.covers_ofTarget ht hshow (Target.ofBranch w)
    have hfollows := (Pairing.paired_ofTarget e (Target.ofBranch w)).follows_root
    have hequals := Plan.equals_of_operations_eq_nil ht hcovers rfl hnil _
      (Pairing.mem_items_self _) _ _ hfollows rfl
    exact Labelled.alike_of_equals hequals (Target.equals_ofBranch w)
  · exact Plan.operations_eq_nil_of_alike ht hshow halike.symm

/-- A page with the same text twice. -/
def twinTexts : Snapshot :=
  .mk (some 1) { kind := .page "home" 0 false } none
    [.mk (some 2) { kind := .text "first" none } none [],
      .mk (some 3) { kind := .text "first" none } none []]

/-- A page with one text twice, and the same page with two texts. -/
theorem plan_operations_eq_nil_iff_twinTexts :
    ∃ p e w, plan (({} : Tree).load twinTexts).2 1 (({} : Tree).load Tree.twoTexts).2 1 = .ok p ∧
      (({} : Tree).load twinTexts).2.branch? 1 = some e ∧
      (({} : Tree).load Tree.twoTexts).2.branch? 1 = some w ∧ (p.operations = [] ↔ e.Alike w) := by
  have hreachable : (({} : Tree).load twinTexts).2.Reachable .successful :=
    .load .empty twinTexts ⟨1, by decide⟩
  exact plan_operations_eq_nil_iff hreachable.sound.toWellFormed
    Tree.reachable_twoTexts.sound.toWellFormed (by rfl) (by rfl) rfl

end ContentTree.Merge
