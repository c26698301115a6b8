import ContentTree.Proofs.Merge.Carry
import ContentTree.Proofs.Session.Reach

/-!
# Merges converge

After a merge the branch of the root is like the target: it has the same shape, and comparable
contents at corresponding nodes. It does not matter which nodes were paired, how far they had to
move, or whether fingerprints of different branches coincide.

## Main definitions

* `Recasts`: updates change the contents of nodes that are merely alike.
* `Reflects`: a tree has the children and the contents that a pairing asks for.

## Main results

* `Scene.children_eq`: after the moves the lists of children are those of the target.
* `Session.merge_alike`: merges converge.
-/

namespace ContentTree

namespace Merge

open Relation

variable {settings : Settings} {editor : Editor} {index : KeyIndex} {d : Draft} {t t' : Tree}
  {root x y z : NodeId} {p q r : Pairing} {claimed : Pairing.Claimed} {gone : List NodeId}
  {e b : Branch} {n : Node}

/-! ### Lists of children -/

/-- Children that stand in order from the beginning do so after the deletions. -/
theorem inOrder_of_trimmed {d : Tree} (ht : t.WellFormed) (hf : p.Fits t root claimed)
    (he : p.existing? = some e) (h : Trimmed t d gone)
    (hgone : ∀ x, x ∈ gone ↔ x ∈ Plan.unpaired claimed e)
    (hindex : ∀ q ∈ p.items, index[q.key]? = q.partner?) : InOrder claimed p index d := by
  intro q hq horder y hy
  rw [hindex q hq] at hy
  cases q with
  | same u b => exact ⟨_, (List.append_nil _).symm⟩
  | alike k c b ps =>
    obtain rfl := Option.some.inj hy
    obtain ⟨hshow, -⟩ := hf.shows _ hq b rfl
    have horder : ps = [] ∨ ps.map Pairing.partner? =
        ((b.children.map Branch.id).filter claimed.contains).map some := by
      rcases Bool.or_eq_true_iff.mp horder with hnil | horder
      · exact .inl (List.isEmpty_iff.mp hnil)
      · exact .inr (of_decide_eq_true horder)
    rcases horder with rfl | horder
    · exact ⟨_, (List.append_nil _).symm⟩
    · -- The partners of the children are the claimed ones among the children of the partner, and
      -- these are the ones that were not deleted.
      have hvalues : values index ps = (b.children.map Branch.id).filter claimed.contains := by
        have hpartners : values index ps = (ps.map Pairing.partner?).filterMap id := by
          rw [List.filterMap_map]
          exact List.filterMap_congr fun r hr =>
            hindex r (Pairing.mem_items_of_mem_children (q := .alike k c b ps) hr hq)
        rw [hpartners, horder, List.filterMap_map]
        exact List.filterMap_some
      have hchildren : d.children b.id = (b.children.map Branch.id).filter claimed.contains := by
        rw [h.children, hshow.children]
        refine List.filter_congr fun x hx => ?_
        rw [← hshow.children, ht.mem_children_iff] at hx
        rw [Bool.eq_iff_iff, decide_eq_true_eq, Std.ExtTreeSet.contains_iff_mem, hgone]
        rcases Plan.mem_unpaired_or_partner ht hf.toCovers he hq rfl rfl hx with hx | ⟨hx, -⟩
        · obtain ⟨heshow, -⟩ := hf.shows p p.mem_items_self e he
          simp [hx, (Plan.below_of_mem_unpaired ht heshow hx).1]
        · obtain ⟨heshow, -⟩ := hf.shows p p.mem_items_self e he
          simp only [hx, iff_true]
          exact fun hgone => (Plan.below_of_mem_unpaired ht heshow hgone).1 hx
      exact ⟨[], by rw [hchildren, ← hvalues]; rfl⟩
  | fresh k c ps => exact nomatch hy

/-- When the children of all nodes are the last ones in their lists, there are no others before
them: whoever stands below a node of the pairing is a node of the pairing, and stands where the
pairing wants it. -/
theorem Scene.children_eq {d : Tree} (h : Scene t root p index d) (hf : p.Fits t root claimed)
    (ht : t.WellFormed) (hall : ∀ r ∈ p.items, ∃ x, index[r.key]? = some x)
    (hlined : ∀ r ∈ p.items, Lined index d r) (hq : q ∈ p.items) (hsame : q.isSame = false)
    (hy : index[q.key]? = some y) : d.children y = values index q.children := by
  obtain ⟨xs, hxs⟩ := hlined q hq y hy
  have hnil : xs = [] := by
    rw [List.eq_nil_iff_forall_not_mem]
    intro z hz
    have hzy : d.Under z y := by
      rw [← h.sound.mem_children_iff, hxs]
      exact List.mem_append_left _ hz
    obtain ⟨r, hr, hrz⟩ := h.strays q hq hsame y hy z hzy
    rcases Pairing.eq_or_exists_parent hr with rfl | ⟨s, hs, hrs⟩
    · -- The root does not stand below a node of the pairing.
      obtain rfl := Option.some.inj ((h.partner r hr _ hf.root_alike.2).symm.trans hrz)
      have hunder := (h.above _ .refl y).mp hzy
      obtain ⟨n, hn⟩ := ht.exists_parent hunder
      rcases h.new_or_within hf hq hy with hnone | hwithin
      · exact Option.some_ne_none _ (hn.symm.trans hnone)
      · exact ht.acyclic _ (TransGen.head' hunder hwithin)
    · -- The node is at the end of the list of its own parent, which can only be this one.
      obtain ⟨w, hw⟩ := hall s hs
      obtain ⟨ys, hys⟩ := hlined s hs w hw
      have hzw : z ∈ values index s.children := mem_values.mpr ⟨r, hrs, hrz⟩
      have hunder : d.Under z w := by
        rw [← h.sound.mem_children_iff, hys]
        exact List.mem_append_right _ hzw
      obtain rfl := hzy.eq hunder
      obtain rfl := h.injective s hs q hq y hw hy
      have hnodup := h.sound.nodup_children y
      rw [hxs] at hnodup
      exact (List.nodup_append'.mp hnodup).2.2 hz hzw
  rw [hxs, hnil, List.nil_append]

/-! ### Updates -/

theorem comparable_recast (content : Content) (n : Node) :
    (Draft.recast content n).toContent.comparable = content.comparable := by
  unfold Draft.recast
  split <;> simp [Content.comparable]

theorem comparable_bumped (n : Node) :
    (Draft.bumped n).toContent.comparable = n.toContent.comparable := by
  unfold Draft.bumped
  split <;> simp [Content.comparable]

/-- Updates change the contents of nodes that are merely alike, to what they are to be. -/
structure Recasts (p : Pairing) (t d : Tree) : Prop where
  sound : d.Sound
  sharing : d.sharing = t.sharing
  children : ∀ z, d.children z = t.children z
  alike : ∀ q ∈ p.items, ∀ k c b ps, q = .alike k c b ps → ∃ m, d.node? b.id = some m ∧
    m.kind.same c.kind = true ∧
    (m.toContent.comparable = b.content.comparable ∨ m.toContent.comparable = c.comparable)
  other : ∀ {x n}, t.node? x = some n →
    (∀ q ∈ p.items, ∀ k c b ps, q = .alike k c b ps → b.id ≠ x) →
    ∃ m, d.node? x = some m ∧ m.toContent.comparable = n.toContent.comparable

/-- A node that is alike has the content it is to have. -/
def Updated (d : Tree) (q : Pairing) : Prop :=
  ∀ k c b ps, q = .alike k c b ps →
    ∃ m, d.node? b.id = some m ∧ m.toContent.comparable = c.comparable

theorem Recasts.setContent {k : BranchKey} {c : Content} {ps : List Pairing}
    (hf : p.Fits t root claimed) (h : Recasts p t' d.tree) (hq : .alike k c b ps ∈ p.items)
    (hn : d.tree.node? b.id = some n) (hkind : n.kind.same c.kind = true) {content : Content}
    (hcontent : content.kind = c.kind ∧ content.comparable = c.comparable) :
    Recasts p t' (d.setContent b.id content).tree ∧
      Updated (d.setContent b.id content).tree (.alike k c b ps) ∧
      ∀ r ∈ p.items, Updated d.tree r → Updated (d.setContent b.id content).tree r := by
  have hg := Draft.rewritten_setContent h.sound.keyed b.id content
  have hself : (d.setContent b.id content).tree.node? b.id = some (Draft.recast content n) := by
    rw [hg.node?_of_some hn, Draft.at_, if_pos (h.sound.keyed hn)]
  have hother : ∀ {x m}, d.tree.node? x = some m → x ≠ b.id →
      (d.setContent b.id content).tree.node? x = some m := by
    intro x m hm hne
    rw [hg.node?_of_some hm, Draft.at_, if_neg (h.sound.keyed hm ▸ hne)]
  have hcomparable : (Draft.recast content n).toContent.comparable = c.comparable := by
    rw [comparable_recast, hcontent.2]
  have hupdated : Updated (d.setContent b.id content).tree (.alike k c b ps) := by
    rintro _ _ _ _ ⟨⟩
    exact ⟨_, hself, hcomparable⟩
  -- A node is the partner of one node of the pairing only.
  have hitem : ∀ {r : Pairing} {k' c' b' ps'}, r ∈ p.items → r = .alike k' c' b' ps' →
      b'.id = b.id → r = .alike k c b ps := by
    rintro r k' c' b' ps' hr rfl hid
    exact hf.partner_injective hr hq (congrArg some hid) rfl
  refine ⟨⟨h.sound.setContent fun m hm => ?_, hg.sharing.trans h.sharing, fun z => ?_, ?_, ?_⟩,
    hupdated, ?_⟩
  · obtain rfl := Option.some.inj (hn.symm.trans hm)
    rw [hcontent.1, Kind.isPage_eq_of_same hkind]
  · rw [← h.children z]
    exact hg.children (fun m => by unfold Draft.at_; split <;> rfl) z
  · intro r hr k' c' b' ps' heq
    by_cases hid : b'.id = b.id
    · obtain ⟨rfl, rfl, rfl, rfl⟩ := Pairing.alike.inj (heq.symm.trans (hitem hr heq hid))
      refine ⟨_, hself, ?_, .inr hcomparable⟩
      exact Content.same_of_comparable_eq hcomparable
    · obtain ⟨m, hm, hrest⟩ := h.alike r hr k' c' b' ps' heq
      exact ⟨m, hother hm hid, hrest⟩
  · intro x m hm hnot
    obtain ⟨m', hm', hcontent'⟩ := h.other hm hnot
    exact ⟨m', hother hm' fun hx => hnot _ hq k c b ps rfl hx.symm, hcontent'⟩
  · intro r hr hur k' c' b' ps' heq
    by_cases hid : b'.id = b.id
    · exact hupdated _ _ _ _ ((hitem hr heq hid).symm.trans heq)
    · obtain ⟨m, hm, hm'⟩ := hur k' c' b' ps' heq
      exact ⟨m, hother hm hid, hm'⟩

/-- The update of one node, where there is one, gives it the content it is to have. -/
theorem carries_updatesAt (settings : Settings) (index : KeyIndex) (hf : p.Fits t root claimed)
    (hunsynced : ∀ id, t'.isSynced id = false) (haccess : editor.access = .unrestricted)
    (h : Recasts p t' d.tree) (hq : q ∈ p.items) :
    ∃ d', Carries settings editor (Plan.updatesAt q) index d index d' ∧ Recasts p t' d'.tree ∧
      Updated d'.tree q ∧ ∀ r ∈ p.items, Updated d.tree r → Updated d'.tree r := by
  cases q with
  | same u b => exact ⟨d, .nil, h, (fun _ _ _ _ heq => nomatch heq), fun _ _ h => h⟩
  | alike k c b ps =>
    obtain ⟨m, hm, hkind, hcontent⟩ := h.alike _ hq k c b ps rfl
    rw [show Plan.updatesAt (.alike k c b ps) =
      if c.comparable = b.content.comparable then [] else [.update k b.id c] from rfl]
    by_cases heq : c.comparable = b.content.comparable
    · -- Without an update the content is the one it had before.
      rw [if_pos heq]
      refine ⟨d, .nil, h, ?_, fun _ _ h => h⟩
      rintro _ _ _ _ ⟨⟩
      exact ⟨m, hm, hcontent.elim (fun hb => hb.trans heq.symm) id⟩
    · rw [if_neg heq]
      obtain ⟨h₁, hupdated, hkept⟩ := h.setContent hf hq hm hkind
        (⟨rfl, rfl⟩ : (Apply.keepOwner c m).kind = c.kind ∧
          (Apply.keepOwner c m).comparable = c.comparable)
      exact ⟨_, .cons (Apply.run_update settings k haccess hm
        ((free_of_sharing_eq hunsynced haccess h.sharing).belowSynced b.id) hkind) .nil, h₁,
        hupdated, hkept⟩
  | fresh k c ps => exact ⟨d, .nil, h, (fun _ _ _ _ heq => nomatch heq), fun _ _ h => h⟩

/-- The updates of a plan give every node the content it is to have. -/
theorem carries_updates (settings : Settings) (index : KeyIndex) (hf : p.Fits t root claimed)
    (hunsynced : ∀ id, t'.isSynced id = false) (haccess : editor.access = .unrestricted)
    (h : Recasts p t' d.tree) :
    ∃ d', Carries settings editor (p.items.flatMap Plan.updatesAt) index d index d' ∧
      Recasts p t' d'.tree ∧ ∀ q ∈ p.items, Updated d'.tree q :=
  Carries.flatMap (fun _ hq _ hd => carries_updatesAt settings index hf hunsynced haccess hd hq) h

/-! ### The branch after a merge -/

/-- A tree has the children and the contents that a pairing asks for. -/
structure Reflects (p : Pairing) (index : KeyIndex) (t : Tree) : Prop where
  node : ∀ q ∈ p.items, q.isSame = false → ∀ y, index[q.key]? = some y → ∃ m, t.node? y = some m ∧
    m.toContent.comparable = q.content.comparable ∧ m.children = values index q.children
  branch : ∀ u b, .same u b ∈ p.items → ∀ n ∈ b.nodes, ∃ m, t.node? n.id = some m ∧
    m.toContent.comparable = n.toContent.comparable ∧ m.children = n.children

/-- A branch whose nodes are found again with comparable contents and the same children is found
again as a whole. -/
theorem exists_branch_equals {t t' : Tree} (ht' : t'.Keyed) (hb : b.Shows t)
    (h : ∀ n ∈ b.nodes, ∃ m, t'.node? n.id = some m ∧
      m.toContent.comparable = n.toContent.comparable ∧ m.children = n.children) :
    ∃ b', b'.id = b.id ∧ b'.Shows t' ∧ ∀ u : Target, u.equals b = true → u.equals b' = true := by
  induction b with
  | mk n cs ih =>
    obtain ⟨-, hchildren, hshows⟩ := Branch.shows_mk.mp hb
    rw [Branch.nodes_mk] at h
    obtain ⟨m, hm, hcontent, hmchildren⟩ := h n List.mem_cons_self
    obtain ⟨ds, hds⟩ := exists_forall₂ fun c hc => ih c hc (hshows c hc) fun k hk =>
      h k (List.mem_cons_of_mem _ (Branch.mem_allNodes.mpr ⟨c, hc, hk⟩))
    have hids : ds.map Branch.id = cs.map Branch.id := by
      clear hchildren hshows h ih hb hmchildren
      induction hds with
      | nil => rfl
      | cons hd _ ih => rw [List.map_cons, List.map_cons, hd.1, ih]
    refine ⟨⟨m, ds⟩, ht' hm, Branch.shows_mk.mpr ⟨?_, ?_, fun d hd => ?_⟩, fun u hu => ?_⟩
    · rwa [ht' hm]
    · rw [hmchildren, hchildren, hids]
    · obtain ⟨c, -, -, hd, -⟩ := exists_of_forall₂ hds.flip hd
      exact hd
    · obtain ⟨l, c, us⟩ := u
      obtain ⟨hc, hus⟩ := Labelled.equals_mk.mp hu
      refine Labelled.equals_mk.mpr ⟨hc.trans hcontent.symm, ?_⟩
      clear hchildren hshows h ih hb hmchildren hids hu
      induction hds generalizing us with
      | nil =>
        cases hus
        exact .nil
      | cons hd _ ih =>
        cases hus with
        | cons hu hus => exact .cons (hd.2.2 _ hu) (ih _ hus)

/-- A tree that has what a pairing asks for has a branch like the target. -/
theorem Reflects.exists_branch (h : Reflects p index t') (ht' : t'.Keyed)
    (hf : p.Fits t root claimed) (hall : ∀ r ∈ p.items, ∃ x, index[r.key]? = some x)
    (hpartner : ∀ q ∈ p.items, ∀ x, q.partner? = some x → index[q.key]? = some x) (q : Pairing) :
    q ∈ p.items → ∀ u : Target, q.Follows u → ∀ y, index[q.key]? = some y →
      ∃ b, b.id = y ∧ b.Shows t' ∧ u.equals b = true := by
  induction q with
  | node q ih =>
    intro hq u hu y hy
    cases hsame : q.isSame with
    | true =>
      cases q with
      | same v b =>
        obtain rfl : v = u := hu
        obtain rfl := Option.some.inj ((hpartner _ hq b.id rfl).symm.trans hy)
        obtain ⟨b', hid, hshow, hequal⟩ :=
          exists_branch_equals ht' (hf.shows _ hq b rfl).1 (h.branch v b hq)
        exact ⟨b', hid, hshow, hequal v (hf.equals _ hq v b rfl)⟩
      | alike k c b ps => exact nomatch hsame
      | fresh k c ps => exact nomatch hsame
    | false =>
      obtain ⟨l, c, us⟩ := u
      obtain ⟨-, hc, hus⟩ := (Pairing.follows_iff hsame).mp hu
      obtain ⟨m, hm, hcontent, hchildren⟩ := h.node q hq hsame y hy
      have hlist : ∀ (ps : List Pairing) (us : List Target), (∀ r ∈ ps, r ∈ q.children) →
          List.Forall₂ Pairing.Follows ps us → ∃ bs : List Branch,
            values index ps = bs.map Branch.id ∧ (∀ b ∈ bs, b.Shows t') ∧
            List.Forall₂ (fun u b => Labelled.equals u b = true) us bs := by
        intro ps us hps hall'
        induction hall' with
        | nil => exact ⟨[], rfl, fun _ hb => (nomatch hb), .nil⟩
        | @cons r u ps us hru _ ihps =>
          have hr := hps r List.mem_cons_self
          have hrp := Pairing.mem_items_of_mem_children hr hq
          obtain ⟨x, hx⟩ := hall r hrp
          obtain ⟨b, rfl, hshow, hequal⟩ := ih r hr hrp u hru x hx
          obtain ⟨bs, hids, hshows, hequals⟩ := ihps fun s hs => hps s (List.mem_cons_of_mem _ hs)
          refine ⟨b :: bs, ?_, fun c hc => ?_, .cons hequal hequals⟩
          · rw [values_cons_of_some hx, hids, List.map_cons]
          · rcases List.mem_cons.mp hc with rfl | hc
            · exact hshow
            · exact hshows c hc
      obtain ⟨bs, hids, hshows, hequals⟩ := hlist q.children us (fun _ hr => hr) hus
      refine ⟨⟨m, bs⟩, ht' hm, Branch.shows_mk.mpr ⟨?_, ?_, hshows⟩, ?_⟩
      · rwa [ht' hm]
      · rw [hchildren, hids]
      · exact Labelled.equals_mk.mpr ⟨by rw [← hc, hcontent], hequals⟩

theorem Reflects.bumpVersion (h : Reflects p index d.tree) (hk : d.tree.Keyed) (page : NodeId) :
    Reflects p index (d.bumpVersion page).tree := by
  have hg := Draft.rewritten_bumpVersion hk page
  have hnode : ∀ {x m}, d.tree.node? x = some m →
      ∃ m', (d.bumpVersion page).tree.node? x = some m' ∧
        m'.toContent.comparable = m.toContent.comparable ∧ m'.children = m.children := by
    intro x m hm
    refine ⟨_, hg.node?_of_some hm, ?_⟩
    unfold Draft.at_
    split
    · exact ⟨comparable_bumped m, by unfold Draft.bumped; split <;> rfl⟩
    · exact ⟨rfl, rfl⟩
  constructor
  · intro q hq hsame y hy
    obtain ⟨m, hm, hcontent, hchildren⟩ := h.node q hq hsame y hy
    obtain ⟨m', hm', hcontent', hchildren'⟩ := hnode hm
    exact ⟨m', hm', hcontent'.trans hcontent, hchildren'.trans hchildren⟩
  · intro u b hq n hn
    obtain ⟨m, hm, hcontent, hchildren⟩ := h.branch u b hq n hn
    obtain ⟨m', hm', hcontent', hchildren'⟩ := hnode hm
    exact ⟨m', hm', hcontent'.trans hcontent, hchildren'.trans hchildren⟩

/-! ### The whole merge -/

theorem recasts_of_scene (h : Scene t root p index d.tree) (hf : p.Fits t root claimed) :
    Recasts p d.tree d.tree where
  sound := h.sound
  sharing := rfl
  children _ := rfl
  alike q hq k c b ps heq := by
    obtain ⟨m, hm, hcontent⟩ := h.old (hf.shows q hq b (heq ▸ rfl)).1.node?
    refine ⟨m, hm, ?_, .inl (congrArg Content.comparable hcontent)⟩
    rw [show m.kind = b.node.kind from congrArg Content.kind hcontent]
    exact hf.kind q hq k c b ps heq
  other hn _ := ⟨_, hn, rfl⟩

/-- After the updates the tree has what the pairing asks for. -/
theorem reflects_of_recasts (ht : t.WellFormed) (hf : p.Fits t root claimed)
    (hall : ∀ r ∈ p.items, ∃ x, index[r.key]? = some x) (h : Scene t root p index t')
    (hlined : ∀ r ∈ p.items, Lined index t' r) (hrecasts : Recasts p t' d.tree)
    (hupdated : ∀ q ∈ p.items, Updated d.tree q) : Reflects p index d.tree where
  node q hq hsame y hy := by
    have hchildren : d.tree.children y = values index q.children :=
      (hrecasts.children y).trans (h.children_eq hf ht hall hlined hq hsame hy)
    obtain ⟨m, hm, hcontent⟩ : ∃ m, d.tree.node? y = some m ∧
        m.toContent.comparable = q.content.comparable := by
      cases q with
      | same u b => exact nomatch hsame
      | alike k c b ps =>
        obtain rfl := Option.some.inj (h.partner_of_not_fresh hq hy rfl)
        exact hupdated _ hq k c b ps rfl
      | fresh k c ps =>
        obtain ⟨hnone, m, hm, hcontent⟩ := h.fresh _ hq rfl y hy
        obtain ⟨m', hm', hcontent'⟩ := hrecasts.other hm (by
          rintro r hr k' c' b' ps' rfl rfl
          exact Option.some_ne_none _ ((hf.shows _ hr b' rfl).1.node?.symm.trans hnone))
        exact ⟨m', hm', hcontent'.trans hcontent⟩
    exact ⟨m, hm, hcontent, by rw [← Tree.children_eq hm, hchildren]⟩
  branch u b hq n hn := by
    obtain ⟨hshow, -⟩ := hf.shows _ hq b rfl
    have hnode := hshow.node?_of_mem hn
    obtain ⟨m, hm, hcontent⟩ := h.old hnode
    obtain ⟨m', hm', hcontent'⟩ := hrecasts.other hm (by
      rintro r hr k c b' ps rfl hid
      exact nomatch hf.own_injective _ hq _ hr n.id (List.mem_map_of_mem hn)
        (List.mem_singleton.mpr hid.symm))
    refine ⟨m', hm', by rw [hcontent', hcontent], ?_⟩
    rw [← Tree.children_eq hm', hrecasts.children, h.inside _ hq u b rfl _ (List.mem_map_of_mem hn),
      Tree.children_eq hnode]

/-- A plan is carried out without a refusal, and then the tree has what the pairing asks for. -/
theorem exists_run_plan (hset : Setting t root claimed p editor) (ht : t.Sound) (hc : t.Coherent)
    (he : p.existing? = some e) (hattempts : 1 ≤ settings.maxAscent) :
    ∃ report index d,
      (Apply.plan settings (Plan.ofPairing e p claimed)).run editor (Draft.start t) =
        (.ok report, d) ∧ Reflects p index d.tree ∧
      (∀ r ∈ p.items, ∃ x, index[r.key]? = some x) ∧
      ∀ q ∈ p.items, ∀ x, q.partner? = some x → index[q.key]? = some x := by
  have hf := hset.fits
  have hindex : ∀ q ∈ p.items, (Plan.ofPairing e p claimed).index[q.key]? = q.partner? :=
    fun q hq => Plan.getElem?_index hf hq
  obtain ⟨hshow, -⟩ := hf.shows p p.mem_items_self e he
  -- The deletions set the scene.
  set ids := (Plan.unpaired claimed e).mergeSort (· ≤ ·) with hids
  have hmem : ∀ x, x ∈ ids ↔ x ∈ Plan.unpaired claimed e := fun x => List.mem_mergeSort
  obtain ⟨d₁, hdeletes, htrimmed⟩ := carries_deletes settings hset.unsynced hset.access
    (Plan.ofPairing e p claimed).index ht.toWellFormed ids []
    (Draft.start t) (.refl ht) fun x hx =>
      ⟨e.id, (Plan.below_of_mem_unpaired ht.toWellFormed hshow ((hmem x).mp hx)).2⟩
  have hgone : ∀ x, x ∈ ids.reverse ++ [] ↔ x ∈ Plan.unpaired claimed e := by simp [hmem]
  have hscene := scene_of_trimmed ht.toWellFormed hf he hc htrimmed hindex hgone
  have horder := inOrder_of_trimmed ht.toWellFormed hf he htrimmed hgone hindex
  have hroot := hscene.partner p p.mem_items_self root hf.root_alike.2
  -- The creations fill the index.
  obtain ⟨index, d₂, hcreates⟩ := hset.fills_creates settings p p.mem_items_self _ d₁
    hscene horder ⟨root, hroot⟩ (by
      intro r hr hfresh
      rw [hindex r (by rw [Pairing.items_eq]; exact List.mem_cons_of_mem _ hr)]
      exact Pairing.partner?_eq_none_iff.mpr hfresh)
  have hall : ∀ r ∈ p.items, ∃ x, index[r.key]? = some x := by
    intro r hr
    rw [Pairing.items_eq] at hr
    rcases List.mem_cons.mp hr with rfl | hr
    · exact ⟨root, hcreates.grows hroot⟩
    · exact hcreates.filled r hr
  -- The moves put the children in order, and the updates leave them there.
  obtain ⟨d₃, hmoves, hscene', hlined⟩ :=
    hset.carries_moves hattempts hall hcreates.scene hcreates.inOrder
  obtain ⟨d₄, hupdates, hrecasts, hupdated⟩ := carries_updates settings index hf
    (hset.free hscene').unsynced hset.access (recasts_of_scene hscene' hf)
  rw [← Plan.moves_eq] at hmoves
  rw [← Plan.updates_eq] at hupdates
  obtain ⟨entries, hentries⟩ :=
    (((hdeletes.append hcreates.carries).append hmoves).append hupdates).run_operations
  refine ⟨⟨entries⟩, index, d₄, ?_,
    reflects_of_recasts ht.toWellFormed hf hall hscene' hlined hrecasts hupdated, hall,
    hscene'.partner⟩
  rw [Apply.plan, Edit.run_bind, Plan.sort_operations]
  rw [show (Plan.ofPairing e p claimed).operations =
    ids.map .delete ++ Plan.creates p ++ Plan.moves claimed p ++ Plan.updates p from rfl, hentries]
  rfl

end Merge

namespace Session

open ContentTree.Merge

variable {t u : Tree} {root targetRoot : NodeId} {n m : Node} {store : Store} {editor : Editor}
  {settings : Settings}

/-- Merges converge: where nobody is kept from writing, nothing is shared, and the store takes what
it is given, a merge succeeds, and afterwards the branch of the root is like that of the target.
What is assumed of the tree holds of reachable trees by `Reachable.sound` and `Reachable.coherent`.
Texts of the target must be leaves, and no fragment may stand below its root. -/
theorem merge_alike (ht : t.Sound) (hcoherent : t.Coherent)
    (hunsynced : ∀ id, t.isSynced id = false) (hroot : t.node? root = some n)
    (hu : u.WellFormed) (htarget : u.node? targetRoot = some m) (hkind : n.kind.same m.kind = true)
    (htexts : ∀ id k, u.node? id = some k → k.kind.isText = true → k.children = [])
    (hfragments : ∀ id k, u.node? id = some k → u.Below id targetRoot → k.kind.isFragment = false)
    (hattempts : 1 ≤ settings.maxAscent) (haccess : editor.access = .unrestricted)
    (hclosed : store.staged = none) (hpersist : store.refusePersist = ∅)
    (hcommit : store.refuseCommit = none) :
    ∃ report b w, (merge editor settings root u targetRoot ⟨t, store⟩).1 = .ok report ∧
      (merge editor settings root u targetRoot ⟨t, store⟩).2.tree.branch? root = some b ∧
      u.branch? targetRoot = some w ∧ b.Alike w := by
  obtain ⟨e, he, rfl, hshow⟩ := ht.toWellFormed.exists_branch hroot
  obtain ⟨w, hw, rfl, hwshow⟩ := hu.exists_branch htarget
  obtain rfl := (ht.branch?_eq_some_iff.mp he).1
  obtain rfl := (hu.branch?_eq_some_iff.mp hw).1
  have hequal := Target.equals_ofBranch w
  -- The target is made of the branch, and inherits from it what is assumed of its nodes.
  have hplain : (Target.ofBranch w).Plain := by
    refine Target.plain_of_equals hwshow hequal
      (fun k hk => htexts k.id k (hwshow.node?_of_mem hk))
      fun k hk => ⟨?_, hu.innerPlain hwshow k hk⟩
    exact hfragments k.id k (hwshow.node?_of_mem (Branch.mem_nodes_of_mem_inner hk))
      (hwshow.below_of_mem_inner hu hk)
  have hcontent : (Target.ofBranch w).content.comparable = w.content.comparable := by
    generalize Target.ofBranch w = v at hequal
    obtain ⟨l, c, vs⟩ := v
    obtain ⟨k, cs⟩ := w
    exact (Labelled.equals_mk.mp hequal).1
  obtain ⟨hfollows, hf⟩ := Pairing.fits_ofTarget ht.toWellFormed hshow
    (Kind.same_trans hkind (Kind.same_symm (Content.same_of_comparable_eq hcontent)))
    (Target.nodup_labels w) hplain
  obtain ⟨report, index, d, hrun, hreflects, hall, hpartner⟩ := exists_run_plan
    ⟨ht.toWellFormed, hf, hunsynced, haccess, fun page hpage =>
      hcoherent.pages.exists_page ht.toWellFormed hpage⟩ ht hcoherent rfl hattempts
  have hplan : Merge.plan t e.id u w.id = .ok (Plan.ofBranches e w) := by
    simp only [Merge.plan, requireBranch, he, hw, bind, Except.bind, hkind, if_true]
    rfl
  -- The transaction succeeds as the operations do, and all that is left is to bump the versions.
  have hcomposed := Apply.composed_plan settings (Plan.ofBranches e w)
  have hrun' : (Apply.plan settings (Plan.ofBranches e w)).run editor (Draft.start t) =
    (.ok report, d) := hrun
  obtain ⟨store', hmerged⟩ := run_ok hcomposed ht hclosed hpersist hcommit hrun'
  have hmerge : merge editor settings e.id u w.id ⟨t, store⟩ =
      (.ok report, ⟨d.bumpPages.tree, store'⟩) := by
    simp only [merge, hplan, hmerged]
  have hsound := (hcomposed.changes editor (Draft.start t) ht).sound ht
  rw [hrun'] at hsound
  obtain ⟨hsound', hreflects'⟩ := Draft.bumpPages_induction
    (P := fun d => d.tree.Sound ∧ Reflects (Pairing.ofTarget e (Target.ofBranch w)).1 index d.tree)
    (fun d page h => ⟨h.1.bumpVersion page, h.2.bumpVersion h.1.keyed page⟩) ⟨hsound, hreflects⟩
  obtain ⟨b, hid, hbshow, hbequal⟩ := hreflects'.exists_branch hsound'.keyed hf hall hpartner _
    (Pairing.mem_items_self _) _ hfollows e.id
    (hpartner _ (Pairing.mem_items_self _) e.id hf.root_alike.2)
  refine ⟨report, b, w, ?_, ?_, hw, Labelled.alike_of_equals hbequal hequal⟩
  · rw [hmerge]
  · rw [hmerge]
    exact hsound'.branch?_eq_some_iff.mpr ⟨hid, hbshow⟩

/-- A page whose texts stand in an element, in the other order. -/
def boxedTexts : Snapshot :=
  .mk (some 1) { kind := .page "home" 0 false } none
    [.mk (some 2) { kind := .element "div" ∅ } none
      [.mk (some 3) { kind := .text "second" none } none [],
        .mk (some 4) { kind := .text "first" none } none []]]

theorem plain_boxedTexts {id : NodeId} {k : Node}
    (hk : (({} : Tree).load boxedTexts).2.node? id = some k) :
    (k.kind.isText = true → k.children = []) ∧ k.kind.isFragment = false := by
  have hall : ∀ entry ∈ (({} : Tree).load boxedTexts).2.nodes.toList,
      (entry.2.kind.isText = true → entry.2.children = []) ∧ entry.2.kind.isFragment = false := by
    decide
  exact hall (id, k) (Std.ExtTreeMap.mem_toList_iff_getElem?_eq_some.mpr hk)

/-- The texts of a page change their places and move into a new element. -/
theorem merge_alike_twoTexts :
    ∃ report b w, (merge ⟨.anonymous, .unrestricted, .reject⟩ {} 1
        (({} : Tree).load boxedTexts).2 1 ⟨(({} : Tree).load Tree.twoTexts).2, {}⟩).1 = .ok report ∧
      (merge ⟨.anonymous, .unrestricted, .reject⟩ {} 1 (({} : Tree).load boxedTexts).2 1
        ⟨(({} : Tree).load Tree.twoTexts).2, {}⟩).2.tree.branch? 1 = some b ∧
      (({} : Tree).load boxedTexts).2.branch? 1 = some w ∧ b.Alike w := by
  have hreachable : (({} : Tree).load boxedTexts).2.Reachable .successful :=
    .load .empty boxedTexts ⟨1, by decide⟩
  exact merge_alike Tree.reachable_twoTexts.sound Tree.reachable_twoTexts.coherent
    (fun id => by
      rw [Tree.isSynced, show (({} : Tree).load Tree.twoTexts).2.sharing = {} from rfl]
      simp [Sharing.isSynced, Sharing.componentOf, Sharing.hasMirrors, Sharing.mirrorSet])
    (by rfl) hreachable.sound.toWellFormed (by rfl) rfl (fun _ _ hk => (plain_boxedTexts hk).1)
    (fun _ _ hk _ => (plain_boxedTexts hk).2) (by decide) rfl rfl rfl rfl

end Session

end ContentTree
