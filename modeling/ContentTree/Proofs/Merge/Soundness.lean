import ContentTree.Proofs.Merge.Rows
import ContentTree.Proofs.Tree.Fingerprint

/-!
# Pairings are sound

No existing node is the partner of two nodes of the target, whatever is claimed before it is come
to. Where a whole branch exists already, its nodes are the partners of the nodes of a branch that is
like it; that the fingerprints are the same is not enough. Any other partner is a child of the
partner of the parent, so that such partners come in chains that begin at the root. Whatever has no
partner is created once, after its parent.

## Main definitions

* `Pairing.Sound`: what a pairing of two branches says, row by row.

## Main results

* `plan_sound`: the pairing that a plan is made of is sound.
-/

open ContentTree.Tree (paragraphOnPage)

namespace ContentTree.Merge

open Relation

variable {t u : Tree} {e w v b : Branch} {x y : NodeId}

namespace Pairing

variable {p q : Pairing} {s : Target} {k : BranchKey} {c : Content} {ps : List Pairing}
  {row : Row} {claimed : Claimed} {root : NodeId}

/-- A pairing of two branches is sound: what its rows say of the nodes of the target fits what is
claimed, the two trees and the plan. -/
structure Sound (t : Tree) (e : Branch) (u : Tree) (w : Branch) (rows : List Row)
    (claimed : Claimed) (plan : Plan) : Prop where
  /-- Every node of the target has one row, which gives its key. -/
  nodes : rows.map (fun r => (r.node, r.key)) = Target.keys w
  /-- Different nodes have different keys. -/
  keys : (rows.map Row.key).Nodup
  /-- The index of the plan has the partners. -/
  index : ∀ r ∈ rows, plan.index[r.key]? = r.partner?
  /-- The roots are partners. -/
  root : ∃ r ∈ rows, r.node = w.id ∧ r.mark = .alike e.id
  /-- No existing node is the partner of two nodes. -/
  injective : ∀ r ∈ rows, ∀ r' ∈ rows, ∀ x, r.partner? = some x → r'.partner? = some x → r = r'
  /-- The claimed nodes are the partners. -/
  mem_claimed : ∀ x, x ∈ claimed ↔ ∃ r ∈ rows, r.partner? = some x
  /-- Below a node that is paired exactly, the two branches are alike, and every node is paired
  exactly with the one at its place. -/
  exact : ∀ r ∈ rows, ∀ x, r.mark = .exact x → ∃ v d, u.branch? r.node = some v ∧
    t.branch? x = some d ∧ v.Alike d ∧
      List.Forall₂ (fun y z => ∃ r' ∈ rows, r'.node = y ∧ r'.mark = .exact z) v.ids d.ids
  /-- Any other partner below the root is a child of the partner of the parent, of the same kind and
  with the same tag. -/
  alike : ∀ r ∈ rows, ∀ x, r.mark = .alike x → r.node = w.id ∨
    ∃ r' ∈ rows, ∃ y n m, u.Under r.node r'.node ∧ r'.mark = .alike y ∧ t.Under x y ∧
      u.node? r.node = some n ∧ t.node? x = some m ∧ m.kind.same n.kind = true ∧
        m.kind.tag? = n.kind.tag?
  /-- All nodes on the way from such a partner up to the root are such partners. -/
  ancestors : ∀ r ∈ rows, ∀ x, r.mark = .alike x → ∀ y, t.Within x y → t.Within y e.id →
    ∃ r' ∈ rows, r'.mark = .alike y
  /-- A node without a partner is created once, below its parent. If the parent has to be created
  itself, that has happened before. -/
  creates : ∀ r ∈ rows, r.mark = .fresh → ∃ r' ∈ rows, u.Under r.node r'.node ∧
    ∃ n followers before after, u.node? r.node = some n ∧
      plan.operations = before ++ .create ⟨r'.key, followers⟩ r.key n.toContent :: after ∧
        r.key ∉ Plan.createdKeys (before ++ after) ∧
          (r'.mark = .fresh → r'.key ∈ Plan.createdKeys before)
  /-- Nothing else is created. -/
  created : ∀ k ∈ Plan.createdKeys plan.operations, ∃ r ∈ rows, r.key = k ∧ r.mark = .fresh

/-! ### Rows by their marks -/

theorem Over.row_mem (h : Over p w q v) (hq : q.isSame = false) :
    ⟨v.id, q.key, q.mark⟩ ∈ p.rows w := by
  refine mem_rows.mpr ⟨q, v, h, ?_⟩
  rw [ownRows_eq hq]
  exact List.mem_singleton_self _

/-- Where no whole branch exists already, the rows are those of single nodes. -/
theorem exists_of_ne_exact (hrow : row ∈ p.rows w) (hmark : ∀ x, row.mark ≠ .exact x) :
    ∃ q v, Over p w q v ∧ row = ⟨v.id, q.key, q.mark⟩ := by
  obtain ⟨q, v, hover, hown⟩ := mem_rows.mp hrow
  cases hq : q.isSame with
  | true =>
    cases q with
    | same s b =>
      obtain ⟨z, -, rfl⟩ := List.mem_map.mp hown
      exact absurd rfl (hmark z.2.2)
    | alike k c b ps => cases hq
    | fresh k c ps => cases hq
  | false =>
    rw [ownRows_eq hq] at hown
    exact ⟨q, v, hover, List.mem_singleton.mp hown⟩

theorem exists_of_alike (hrow : row ∈ p.rows w) (hmark : row.mark = .alike x) :
    ∃ k c b ps v, Over p w (alike k c b ps) v ∧ b.id = x ∧ row.node = v.id := by
  obtain ⟨q, v, hover, rfl⟩ := exists_of_ne_exact hrow (by simp [hmark])
  cases q with
  | same s b => cases hmark
  | alike k c b ps => exact ⟨k, c, b, ps, v, hover, Mark.alike.inj hmark, rfl⟩
  | fresh k c ps => cases hmark

theorem exists_of_fresh (hrow : row ∈ p.rows w) (hmark : row.mark = .fresh) :
    ∃ c ps v, Over p w (fresh row.key c ps) v ∧ row.node = v.id := by
  obtain ⟨q, v, hover, rfl⟩ := exists_of_ne_exact hrow (by simp [hmark])
  cases q with
  | same s b => cases hmark
  | alike k c b ps => cases hmark
  | fresh k c ps => exact ⟨c, ps, v, hover, rfl⟩

/-- The keys stand between the nodes of two branches that are both like the target. -/
theorem mem_zip_ids_iff (hs : s.equals b = true) :
    (x, y) ∈ v.ids.zip b.ids ↔ ∃ k, (x, k, y) ∈ v.ids.zip (keysOfSame s b) := by
  rw [← map_snd_keysOfSame hs, List.zip_map_right, List.mem_map]
  constructor
  · rintro ⟨⟨x, k, y⟩, hz, heq⟩
    obtain ⟨rfl, rfl⟩ := Prod.mk.inj heq
    exact ⟨k, hz⟩
  · rintro ⟨k, hz⟩
    exact ⟨_, hz, rfl⟩

theorem exists_of_exact (hp : p.Pairs w) (hrow : row ∈ p.rows w) (hmark : row.mark = .exact x) :
    ∃ s b v, Over p w (same s b) v ∧ (row.node, x) ∈ v.ids.zip b.ids := by
  obtain ⟨q, v, hover, hown⟩ := mem_rows.mp hrow
  cases q with
  | same s b =>
    obtain ⟨⟨y, k, z⟩, hz, rfl⟩ := List.mem_map.mp hown
    obtain rfl := Mark.exact.inj hmark
    exact ⟨s, b, v, hover, (mem_zip_ids_iff (hover.pairs hp).1).mpr ⟨k, hz⟩⟩
  | alike k c b ps =>
    obtain rfl := List.mem_singleton.mp hown
    exact nomatch hmark
  | fresh k c ps =>
    obtain rfl := List.mem_singleton.mp hown
    exact nomatch hmark

theorem Over.exists_exact (h : Over p w (same s b) v) (hs : s.equals b = true)
    (hxy : (x, y) ∈ v.ids.zip b.ids) : ∃ row ∈ p.rows w, row.node = x ∧ row.mark = .exact y := by
  obtain ⟨k, hz⟩ := (mem_zip_ids_iff hs).mp hxy
  exact ⟨_, mem_rows.mpr ⟨_, _, h, List.mem_map_of_mem hz⟩, rfl, rfl⟩

/-! ### Up from a node of the pairing -/

/-- A node that is alike is the root, or else its partner stands below that of the parent, which is
alike as well. -/
theorem Over.of_alike (h : Over p w (alike k c b ps) v)
    (hbelow : ∀ q ∈ p.items, ∀ r ∈ q.children, r.AlikeBelow q.existing?) :
    v = w ∨ ∃ k' c' a qs d, Over p w (alike k' c' a qs) d ∧ v ∈ d.children ∧ b ∈ a.children ∧
      compatible b.node.kind c.kind = true := by
  cases h with
  | root => exact .inl rfl
  | @child q _ d _ hover hmem =>
    obtain ⟨hq, hv⟩ := List.of_mem_zip hmem
    obtain ⟨a, ha, hba, hkinds⟩ := hbelow q hover.mem_items _ hq k c b ps rfl
    right
    cases q with
    | same s b => cases hq
    | alike k' c' a' qs =>
      obtain rfl := Option.some.inj ha
      exact ⟨k', c', a', qs, d, hover, hv, hba, hkinds⟩
    | fresh k' c' qs => cases ha

/-- A node without a partner is a child, unless the root has none. -/
theorem Over.of_fresh (h : Over p w (fresh k c ps) v) (hp : p.isFresh = false) :
    ∃ q d, Over p w q d ∧ v ∈ d.children ∧ fresh k c ps ∈ q.children := by
  cases h with
  | root => cases hp
  | @child q _ d _ hover hmem =>
    obtain ⟨hq, hv⟩ := List.of_mem_zip hmem
    exact ⟨q, d, hover, hv, hq⟩

/-- All nodes on the way up to the root from a partner that is alike are such partners. -/
theorem Over.exists_alike (ht : t.WellFormed) (hc : Covers t root claimed p) (h : Over p w q v) :
    ∀ k c b ps, q = alike k c b ps → ∀ y, t.Within b.id y → t.Within y root →
      ∃ k' c' a qs d, Over p w (alike k' c' a qs) d ∧ a.id = y := by
  induction h with
  | root =>
    rintro k c b ps rfl y hby hyroot
    have hroot : b.id = root := Option.some.inj hc.root_alike.2
    refine ⟨k, c, b, ps, w, .root, ?_⟩
    -- Nothing is above the root and at or below it.
    rcases hby.eq_or_below with rfl | hbelow
    · rfl
    · exact absurd (TransGen.trans_left hbelow hyroot) (hroot ▸ ht.acyclic b.id)
  | @child q r v d hover hmem ih =>
    rintro k c b ps rfl y hby hyroot
    rcases hby.eq_or_below with rfl | hbelow
    · exact ⟨k, c, b, ps, d, hover.child hmem, rfl⟩
    · -- The way up goes on from the partner of the parent.
      obtain ⟨hr, -⟩ := List.of_mem_zip hmem
      obtain ⟨a, ha, hba⟩ := hc.alike_below q hover.mem_items _ hr k c b ps rfl
      cases q with
      | same s b => cases hr
      | alike k' c' a' qs =>
        obtain rfl := Option.some.inj ha
        have hshow := (hc.shows _ hover.mem_items a' rfl).1
        exact ih k' c' a' qs rfl y (hbelow.of_under (hshow.under_of_mem_children ht hba)) hyroot
      | fresh k' c' qs => cases ha

/-! ### Every existing node once -/

/-- No existing node is claimed twice. -/
theorem Paired.nodup_own {us : List Target} (h : Paired (spots e) ∅ claimed us [p])
    (ht : t.WellFormed) (hc : Covers t root claimed p) : (p.items.flatMap own).Nodup := by
  have hdisjoint := h.disjoint
  rw [allItems_singleton] at hdisjoint
  refine List.nodup_flatMap.mpr ⟨fun q hq => ?_, hdisjoint⟩
  cases q with
  | same s b => exact (hc.shows _ hq b rfl).1.nodup_ids ht
  | alike k c b ps => exact List.nodup_singleton _
  | fresh k c ps => exact List.nodup_nil

/-- No two rows have the same partner. -/
theorem Pairs.row_injective (h : p.Pairs w) (hown : (p.items.flatMap own).Nodup) {r r' : Row}
    (hr : r ∈ p.rows w) (hr' : r' ∈ p.rows w) (hx : r.partner? = some x)
    (hx' : r'.partner? = some x) : r = r' := by
  rw [← h.partners_rows, List.Nodup, List.pairwise_filterMap] at hown
  by_contra hne
  have hsymm : Std.Symm fun r r' : Row =>
      ∀ y, r.partner? = some y → ∀ z, r'.partner? = some z → y ≠ z :=
    ⟨fun _ _ h y hy z hz => (h z hz y hy).symm⟩
  exact hown.forall hr hr' hne x hx x hx' rfl

end Pairing

/-! ### Creations in a plan -/

/-- In a plan, a new child of a node is created once, and where the node is new itself it is created
before. -/
theorem Plan.exists_create_operations {p q r : Pairing} (e : Branch) (claimed : Pairing.Claimed)
    (hkeys : (p.items.map Pairing.key).Nodup) (hq : q ∈ p.items) (hr : r ∈ q.children)
    (hnew : r.isFresh = true) : ∃ followers before after,
      (ofPairing e p claimed).operations =
          before ++ .create ⟨q.key, followers⟩ r.key r.content :: after ∧
        r.key ∉ createdKeys (before ++ after) ∧
          (q = p ∨ (q.isFresh = true → q.key ∈ createdKeys before)) := by
  obtain ⟨followers, before, after, hcreates, horder⟩ := exists_create hq hr hnew
  have hoperations : (ofPairing e p claimed).operations =
      (deletes claimed e ++ before) ++ .create ⟨q.key, followers⟩ r.key r.content ::
        (after ++ moves claimed p ++ updates p) := by
    simp only [ofPairing, hcreates, List.append_assoc, List.cons_append]
  refine ⟨followers, _, _, hoperations, ?_, horder.imp_right fun h hqnew => ?_⟩
  · have hnodup := nodup_createdKeys_of_nodup hkeys
    rw [← createdKeys_operations e p claimed, hoperations, createdKeys_append] at hnodup
    rw [createdKeys_append]
    exact (List.nodup_cons.mp (List.nodup_middle.mp hnodup)).1
  · rw [createdKeys_append]
    exact List.mem_append_right _ (h hqnew)

/-! ### Soundness -/

namespace Pairing

section

variable (ht : t.WellFormed) (hu : u.WellFormed) (hw : w.Shows u) (hc : Covers t root claimed p)
  (hp : p.Pairs w)

include ht hu hw hc hp

/-- Below a node that is paired exactly, the two branches are alike, and their nodes are paired
exactly one by one. -/
theorem exists_branches_of_exact (hrow : row ∈ p.rows w) (hmark : row.mark = .exact x) :
    ∃ v d, u.branch? row.node = some v ∧ t.branch? x = some d ∧ v.Alike d ∧
      List.Forall₂ (fun y z => ∃ r ∈ p.rows w, r.node = y ∧ r.mark = .exact z) v.ids d.ids := by
  obtain ⟨s, b, v, hover, hx⟩ := exists_of_exact hp hrow hmark
  obtain ⟨hsb, hsv⟩ := hover.pairs hp
  obtain ⟨hshow, -⟩ := hc.shows _ hover.mem_items b rfl
  -- The target is like both branches, so that they are like each other.
  have halike := Labelled.alike_of_equals hsv hsb
  obtain ⟨v', d, hnode, hv', hid, hd, halike', hsub⟩ :=
    halike.exists_of_mem_zip (hover.shows hw) hshow hx
  refine ⟨v', d, hu.branch?_eq_some_iff.mpr ⟨hnode, hv'⟩, ht.branch?_eq_some_iff.mpr ⟨hid, hd⟩,
    halike', List.forall₂_iff_zip.mpr ⟨halike'.length_ids, fun hyz => ?_⟩⟩
  exact hover.exists_exact hsb (hsub hyz)

/-- Any other partner below the root is a child of the partner of the parent. -/
theorem exists_parent_of_alike
    (hbelow : ∀ q ∈ p.items, ∀ r ∈ q.children, r.AlikeBelow q.existing?)
    (hrow : row ∈ p.rows w) (hmark : row.mark = .alike x) : row.node = w.id ∨
      ∃ r ∈ p.rows w, ∃ y n m, u.Under row.node r.node ∧ r.mark = .alike y ∧ t.Under x y ∧
        u.node? row.node = some n ∧ t.node? x = some m ∧ m.kind.same n.kind = true ∧
          m.kind.tag? = n.kind.tag? := by
  obtain ⟨k, c, b, ps, v, hover, rfl, hnode⟩ := exists_of_alike hrow hmark
  rw [hnode]
  rcases hover.of_alike hbelow with rfl | ⟨k', c', a, qs, d, hover', hv, hb, hkinds⟩
  · exact .inl rfl
  · right
    obtain ⟨hshow, -⟩ := hc.shows _ hover.mem_items b rfl
    obtain ⟨hshow', -⟩ := hc.shows _ hover'.mem_items a rfl
    obtain rfl : c = v.content := (hover.pairs hp).1
    obtain ⟨hkind, htag⟩ := compatible_iff.mp hkinds
    exact ⟨_, hover'.row_mem rfl, a.id, v.node, b.node,
      (hover'.shows hw).under_of_mem_children hu hv, rfl, hshow'.under_of_mem_children ht hb,
      (hover.shows hw).node?, hshow.node?, hkind, htag⟩

end

/-- A node without a partner is created below its parent. -/
theorem exists_create_of_fresh (hu : u.WellFormed) (hw : w.Shows u) (hp : p.Pairs w)
    (hroot : p.isFresh = false) (hkeys : (p.items.map key).Nodup) (hrow : row ∈ p.rows w)
    (hmark : row.mark = .fresh) : ∃ r ∈ p.rows w, u.Under row.node r.node ∧
      ∃ n followers before after, u.node? row.node = some n ∧
        (Plan.ofPairing e p claimed).operations =
            before ++ .create ⟨r.key, followers⟩ row.key n.toContent :: after ∧
          row.key ∉ Plan.createdKeys (before ++ after) ∧
            (r.mark = .fresh → r.key ∈ Plan.createdKeys before) := by
  obtain ⟨c, ps, v, hover, hnode⟩ := exists_of_fresh hrow hmark
  rw [hnode]
  obtain rfl : c = v.content := (hover.pairs hp).1
  obtain ⟨q, d, hover', hv, hmem⟩ := hover.of_fresh hroot
  obtain ⟨followers, before, after, hoperations, honce, horder⟩ :=
    Plan.exists_create_operations e claimed hkeys hover'.mem_items hmem rfl
  refine ⟨_, hover'.row_mem (isSame_eq_false_of_child hmem),
    (hover'.shows hw).under_of_mem_children hu hv, v.node, followers, before, after,
    (hover.shows hw).node?, hoperations, honce, fun hmark' => ?_⟩
  have hnew : q.isFresh = true := mark_eq_fresh_iff.mp hmark'
  rcases horder with rfl | horder
  · cases hroot.symm.trans hnew
  · exact horder hnew

/-- The pairing of the target of a branch with another branch is sound. -/
theorem sound_ofTarget (ht : t.WellFormed) (hu : u.WellFormed) (he : e.Shows t) (hw : w.Shows u) :
    Sound t e u w ((ofTarget e (Target.ofBranch w)).1.rows w) (ofTarget e (Target.ofBranch w)).2
      (Plan.ofBranches e w) := by
  have hpaired := paired_ofTarget e (Target.ofBranch w)
  have hcovers := covers_ofTarget ht he (Target.ofBranch w)
  have hfollows := hpaired.follows_root
  have hpairs := hfollows.pairs (Target.of_ofBranch w) hcovers.equals
  have hentries := hpairs.entries_rows
  have hkeys := hfollows.keys_eq hcovers.equals
  have hnodup := hfollows.nodup_entries (Target.nodup_labels w)
  have hrowKeys : ((ofTarget e (Target.ofBranch w)).1.rows w).map Row.key =
      (Target.ofBranch w).labels.map Label.key := by
    rw [← hkeys, ← hentries, List.map_map]
    rfl
  have hplan : Plan.ofBranches e w = Plan.ofPairing e (ofTarget e (Target.ofBranch w)).1
      (ofTarget e (Target.ofBranch w)).2 := rfl
  rw [hplan]
  refine
    { nodes := ?nodes, keys := ?keys, index := ?index, root := ?root, injective := ?injective
      mem_claimed := ?mem_claimed, exact := ?exact, alike := ?alike, ancestors := ?ancestors
      creates := ?creates, created := ?created }
  case nodes =>
    rw [Target.keys, ← hpairs.nodes_rows, ← hrowKeys, List.zip_map']
  case keys =>
    rw [hrowKeys, ← hkeys]
    exact hnodup
  case index =>
    intro r hr
    exact Plan.getElem?_index_of_mem_entries hnodup (hentries ▸ List.mem_map_of_mem hr)
  case root =>
    exact ⟨_, Over.root.row_mem hcovers.root_alike.1, rfl, rfl⟩
  case injective =>
    intro r hr r' hr' x hx hx'
    exact hpairs.row_injective (hpaired.nodup_own ht hcovers) hr hr' hx hx'
  case mem_claimed =>
    intro x
    rw [hcovers.mem_claimed, ← List.mem_flatMap, ← hpairs.partners_rows, List.mem_filterMap]
  case exact =>
    intro r hr x hmark
    exact exists_branches_of_exact ht hu hw hcovers hpairs hr hmark
  case alike =>
    intro r hr x hmark
    have hbelow := hpaired.alike_below
    rw [allItems_singleton] at hbelow
    exact exists_parent_of_alike ht hu hw hcovers hpairs hbelow hr hmark
  case ancestors =>
    intro r hr x hmark y hxy hy
    obtain ⟨k, c, b, ps, v, hover, rfl, -⟩ := exists_of_alike hr hmark
    obtain ⟨k', c', a, qs, d, hover', rfl⟩ :=
      hover.exists_alike ht hcovers k c b ps rfl y hxy hy
    exact ⟨_, hover'.row_mem rfl, rfl⟩
  case creates =>
    intro r hr hmark
    exact exists_create_of_fresh hu hw hpairs rfl (nodup_keys hnodup) hr hmark
  case created =>
    intro k hk
    rw [Plan.createdKeys_operations, Plan.createdKeys_creates] at hk
    obtain ⟨q, hq, rfl⟩ := List.mem_map.mp hk
    obtain ⟨hq, hnew⟩ := List.mem_filter.mp hq
    -- The entry of the node has no partner, and every entry is in a row.
    have hentry := mem_entries (items_eq _ ▸ List.mem_cons_of_mem _ hq)
    rw [partner?_eq_none_iff.mpr hnew, ← hentries] at hentry
    obtain ⟨r, hr, heq⟩ := List.mem_map.mp hentry
    obtain ⟨hkey, hpartner⟩ := Prod.mk.inj heq
    exact ⟨r, hr, hkey, Mark.partner?_eq_none_iff.mp hpartner⟩

end Pairing

/-- The pairing that a plan is made of is sound, for any two trees and any two roots of the same
kind. -/
theorem plan_sound {root targetRoot : NodeId} {n m : Node} (ht : t.WellFormed) (hu : u.WellFormed)
    (hroot : t.node? root = some n) (htarget : u.node? targetRoot = some m)
    (hkind : n.kind.same m.kind = true) :
    ∃ p e w, plan t root u targetRoot = .ok p ∧ t.branch? root = some e ∧
      u.branch? targetRoot = some w ∧
      Pairing.Sound t e u w ((Pairing.ofTarget e (Target.ofBranch w)).1.rows w)
        (Pairing.ofTarget e (Target.ofBranch w)).2 p := by
  obtain ⟨e, he, rfl, hshow⟩ := ht.exists_branch hroot
  obtain ⟨w, hw, rfl, hshow'⟩ := hu.exists_branch htarget
  exact ⟨Plan.ofBranches e w, e, w, plan_eq_ok he hw hkind, he, hw,
    Pairing.sound_ofTarget ht hu hshow hshow'⟩

/-- A page whose first text has been taken out of the paragraph, where another one stands now. -/
def emptiedParagraph : Snapshot :=
  .mk (some 1) { kind := .page "home" 3 false } none
    [.mk (some 2) { kind := .text "first" none } none [],
      .mk (some 3) { kind := .element "p" ∅ } none
        [.mk (some 4) { kind := .text "third" none } none []],
      .mk (some 5) { kind := .element "div" ∅ } none
        [.mk (some 6) { kind := .text "fourth" none } none []]]

/-- The text that has been taken out of the paragraph is claimed before the paragraph is come to,
and the pairing is sound all the same. -/
theorem plan_sound_emptiedParagraph :
    ∃ p e w, plan (({} : Tree).load paragraphOnPage).2 1 (({} : Tree).load emptiedParagraph).2 1 =
        .ok p ∧
      (({} : Tree).load paragraphOnPage).2.branch? 1 = some e ∧
      (({} : Tree).load emptiedParagraph).2.branch? 1 = some w ∧
      Pairing.Sound (({} : Tree).load paragraphOnPage).2 e (({} : Tree).load emptiedParagraph).2 w
        ((Pairing.ofTarget e (Target.ofBranch w)).1.rows w)
        (Pairing.ofTarget e (Target.ofBranch w)).2 p := by
  have hreachable : (({} : Tree).load paragraphOnPage).2.Reachable .successful :=
    .load .empty paragraphOnPage ⟨1, by decide⟩
  have hreachable' : (({} : Tree).load emptiedParagraph).2.Reachable .successful :=
    .load .empty emptiedParagraph ⟨1, by decide⟩
  exact plan_sound hreachable.sound.toWellFormed hreachable'.sound.toWellFormed (by rfl) (by rfl)
    rfl

end ContentTree.Merge
