import ContentTree.Merge.Plan
import ContentTree.Proofs.Merge.Claims

/-!
# What a plan knows of the tree

A plan is made from a pairing of a target with a branch of a tree. Every claimed node stands at or
below the root of the branch, every node that is alike directly below the partner of its parent, and
the nodes to be deleted are the topmost ones that nobody claims.

## Main definitions

* `Pairing.Covers`: the partners of a pairing stand in the branch of a node of a tree.
* `Pairing.Fits`: a pairing fits the branch of a node of a tree.

## Main results

* `Pairing.covers_ofTarget`, `Pairing.fits_ofTarget`: the pairing of a target with a branch covers
  the branch, and fits it where the target is plain.
* `Plan.getElem?_index`: the index of a plan has exactly the nodes with a partner.
* `Plan.mem_unpaired_or_partner`, `Plan.below_of_mem_unpaired`: what is deleted.
* `Plan.sort_operations`: the operations of a plan are in order already.
* `Plan.exists_create`: a new node is created after its parent.
-/

namespace ContentTree.Merge

open Relation

variable {t : Tree} {b c : Branch} {x y : NodeId}

/-! ### Spots -/

theorem mem_below {known : Std.ExtTreeMap NodeId UInt32} {parent : NodeId} {cs : List Branch}
    {s : Spot} (hs : s ∈ spotsWith.below known parent cs) :
    ∃ c ∈ cs, s = ⟨parent, known.getD c.id 0, c⟩ ∨ s ∈ spotsWith known c := by
  induction cs with
  | nil => exact nomatch hs
  | cons c cs ih =>
    rw [spotsWith.below] at hs
    rcases List.mem_cons.mp hs with rfl | hs
    · exact ⟨c, List.mem_cons_self, .inl rfl⟩
    · rcases List.mem_append.mp hs with hs | hs
      · exact ⟨c, List.mem_cons_self, .inr hs⟩
      · obtain ⟨d, hd, h⟩ := ih hs
        exact ⟨d, List.mem_cons_of_mem _ hd, h⟩

/-- Every spot is a branch of the tree below the root. -/
theorem shows_of_mem_spotsWith (ht : t.WellFormed) {known : Std.ExtTreeMap NodeId UInt32} {s : Spot}
    (hb : b.Shows t) (hs : s ∈ spotsWith known b) :
    s.branch.Shows t ∧ t.Below s.branch.id b.id := by
  induction b with
  | mk n cs ih =>
    rw [spotsWith] at hs
    obtain ⟨c, hc, hs⟩ := mem_below hs
    have hshow := hb.of_mem_children hc
    have hcn : t.Under c.id n.id := hb.under_of_mem_children ht hc
    rcases hs with rfl | hs
    · exact ⟨hshow, .single hcn⟩
    · obtain ⟨hs, hbelow⟩ := ih c hc hshow hs
      exact ⟨hs, hbelow.tail hcn⟩

namespace Pairing

variable {p q r : Pairing} {u : Target} {k : BranchKey} {claimed : Claimed} {root : NodeId}

/-- A pairing covers the branch of a node of a tree: its partners stand in the branch, and no
existing node is claimed twice. -/
structure Covers (t : Tree) (root : NodeId) (claimed : Claimed) (p : Pairing) : Prop where
  root_alike : p.isSame = false ∧ p.partner? = some root
  shows : ∀ q ∈ p.items, ∀ b, q.existing? = some b → b.Shows t ∧ t.Within b.id root
  equals : ∀ q ∈ p.items, ∀ u b, q = same u b → u.equals b = true
  alike_below : ∀ q ∈ p.items, ∀ r ∈ q.children, ∀ k c b ps, r = alike k c b ps →
    ∃ a, q.existing? = some a ∧ b ∈ a.children
  below : ∀ q ∈ p.items, ∀ r ∈ q.children, ∀ x ∈ r.own, t.Below x root
  own_injective : ∀ q ∈ p.items, ∀ r ∈ p.items, ∀ x, x ∈ q.own → x ∈ r.own → q = r
  mem_claimed : ∀ x, x ∈ claimed ↔ ∃ q ∈ p.items, x ∈ q.own

/-- A pairing fits the branch of a node of a tree: it covers the branch, partners are of the same
kind, keys are different, and no fragment or page is to stand below another node. -/
structure Fits (t : Tree) (root : NodeId) (claimed : Claimed) (p : Pairing) : Prop
    extends Covers t root claimed p where
  kind : ∀ q ∈ p.items, ∀ k c b ps, q = alike k c b ps → b.node.kind.same c.kind = true
  nodup : (p.entries.map Prod.fst).Nodup
  plain : ∀ q ∈ p.items, ∀ r ∈ q.children, q.content.kind.isText = false ∧
    r.content.kind.isFragment = false ∧ r.content.kind.isPage = false

/-- Below a partner that stands in the branch of `e` there are only partners of the same branch. -/
theorem Paired.shows_child {e : Branch} (h : Paired (spots e) ∅ claimed [u] [p])
    (ht : t.WellFormed) (he : e.Shows t) (hq : q ∈ p.items)
    (hshows : ∀ b, q.existing? = some b → b.Shows t ∧ t.Within b.id e.id) (hr : r ∈ q.children)
    (hb : r.existing? = some b) : b.Shows t ∧ t.Below b.id e.id := by
  cases r with
  | same u b' =>
    obtain rfl := Option.some.inj hb
    have hitem := (allItems_singleton p).symm ▸ mem_items_of_mem_children hr hq
    obtain ⟨⟨s, hs, rfl⟩, -⟩ := h.same_spot _ hitem u b' rfl
    exact shows_of_mem_spotsWith ht he hs
  | alike k c b' ps =>
    obtain rfl := Option.some.inj hb
    obtain ⟨a, ha, hba, -⟩ :=
      h.alike_below q ((allItems_singleton p).symm ▸ hq) _ hr _ _ _ _ rfl
    obtain ⟨hshow, hwithin⟩ := hshows a ha
    exact ⟨hshow.of_mem_children hba, TransGen.head' (hshow.under_of_mem_children ht hba) hwithin⟩
  | fresh k c ps => exact nomatch hb

theorem Paired.shows {e : Branch} (h : Paired (spots e) ∅ claimed [u] [p]) (ht : t.WellFormed)
    (he : e.Shows t) (hroot : p.existing? = some e) :
    ∀ q ∈ p.items, ∀ b, q.existing? = some b → b.Shows t ∧ t.Within b.id e.id := by
  refine items_induction ?_ fun q hq ih r hr b hb => ?_
  · intro b hb
    obtain rfl := Option.some.inj (hroot.symm.trans hb)
    exact ⟨he, .refl⟩
  · obtain ⟨hshow, hbelow⟩ := h.shows_child ht he hq ih hr hb
    exact ⟨hshow, hbelow.within⟩

theorem Paired.follows_root (h : Paired (spots b) ∅ claimed [u] [p]) : p.Follows u := by
  cases h.follows with
  | cons hfollows _ => exact hfollows

/-- The pairing of a target with a branch covers the branch, whatever the target is. -/
theorem covers_ofTarget (ht : t.WellFormed) {e : Branch} (he : e.Shows t) (u : Target) :
    Covers t e.id (ofTarget e u).2 (ofTarget e u).1 := by
  have hpaired := paired_ofTarget e u
  have hshows := hpaired.shows ht he rfl
  have hdisjoint := hpaired.disjoint
  have halike := hpaired.alike_below
  have hspot := hpaired.same_spot
  rw [allItems_singleton] at hdisjoint halike hspot
  refine
    { root_alike := ⟨rfl, rfl⟩, shows := hshows
      equals := fun q hq u b heq => (hspot q hq u b heq).2
      alike_below := ?alike_below, below := ?below
      own_injective := fun q hq r hr x => eq_of_mem_of_disjoint hdisjoint hq hr
      mem_claimed := ?mem_claimed }
  case alike_below =>
    intro q hq r hr k c b ps heq
    obtain ⟨a, ha, hba, -⟩ := halike q hq r hr k c b ps heq
    exact ⟨a, ha, hba⟩
  case below =>
    intro q hq r hr x hx
    cases r with
    | same u b =>
      obtain ⟨hshow, hb⟩ := hpaired.shows_child ht he hq (hshows q hq) hr rfl
      obtain ⟨n, hn, rfl⟩ := List.mem_map.mp hx
      exact TransGen.trans_right (hshow.within_of_mem ht hn) hb
    | alike k c b ps =>
      obtain rfl := List.mem_singleton.mp hx
      exact (hpaired.shows_child ht he hq (hshows q hq) hr rfl).2
    | fresh k c ps => exact nomatch hx
  case mem_claimed =>
    intro x
    rw [hpaired.mem_iff, allItems_singleton]
    simp

/-- The pairing of a target with a branch fits the branch. -/
theorem fits_ofTarget (ht : t.WellFormed) {e : Branch} (he : e.Shows t)
    (hkind : e.node.kind.same u.content.kind = true) (hlabels : u.labels.Nodup) (hplain : u.Plain) :
    (ofTarget e u).1.Follows u ∧ Fits t e.id (ofTarget e u).2 (ofTarget e u).1 := by
  have hpaired := paired_ofTarget e u
  have hfollows := hpaired.follows_root
  have halike := hpaired.alike_below
  rw [allItems_singleton] at halike
  refine ⟨hfollows,
    { covers_ofTarget ht he u with
      kind := ?kind, nodup := hfollows.nodup_entries hlabels, plain := hfollows.plain hplain }⟩
  -- The roots are of the same kind by assumption, and the others were chosen so.
  rintro q hq k c b ps rfl
  rcases eq_or_exists_parent hq with heq | ⟨r, hr, hqr⟩
  · obtain ⟨-, rfl, rfl, -⟩ := Pairing.alike.inj heq
    exact hkind
  · obtain ⟨-, -, -, hcompatible⟩ := halike r hr _ hqr _ _ _ _ rfl
    exact (compatible_iff.mp hcompatible).1

namespace Fits

variable (h : p.Fits t root claimed)
include h

theorem exists_root : ∃ b, p.existing? = some b ∧ b.id = root := by
  have hpartner := h.root_alike.2
  rwa [partner?_eq, Option.map_eq_some_iff] at hpartner

theorem nodup_keys : (p.items.map key).Nodup := Pairing.nodup_keys h.nodup

theorem key_injective (hq : q ∈ p.items) (hr : r ∈ p.items) (heq : q.key = r.key) : q = r :=
  List.inj_on_of_nodup_map h.nodup_keys hq hr heq

theorem nodup_items : p.items.Nodup := h.nodup_keys.of_map

theorem nodup_flatMap_children : (p.items.flatMap children).Nodup := by
  have hitems := h.nodup_items
  rw [items_eq] at hitems
  exact (perm_flatMap_children p).nodup_iff.mpr (List.nodup_cons.mp hitems).2

theorem nodup_children (hq : q ∈ p.items) : q.children.Nodup :=
  (List.nodup_flatMap.mp h.nodup_flatMap_children).1 q hq

theorem parent_unique (hq : q ∈ p.items) (hr : r ∈ p.items) {s : Pairing} (hs : s ∈ q.children)
    (hs' : s ∈ r.children) : q = r :=
  eq_of_mem_of_disjoint (List.nodup_flatMap.mp h.nodup_flatMap_children).2 hq hr hs hs'

theorem partner_injective (hq : q ∈ p.items) (hr : r ∈ p.items) (hx : q.partner? = some x)
    (hx' : r.partner? = some x) : q = r :=
  h.own_injective q hq r hr x (mem_own_of_partner? hx) (mem_own_of_partner? hx')

end Fits

end Pairing

/-! ### The index -/

namespace Plan

open Pairing (Covers Fits)

variable {p q : Pairing} {k : BranchKey} {claimed : Pairing.Claimed} {root : NodeId} {e : Branch}

theorem getElem?_foldl_insert {entries : List (BranchKey × NodeId)}
    (hnodup : (entries.map Prod.fst).Nodup) : ∀ index : KeyIndex,
    (entries.foldl (fun index entry => index.insert entry.1 entry.2) index)[k]? = some x ↔
      (k, x) ∈ entries ∨ k ∉ entries.map Prod.fst ∧ index[k]? = some x := by
  induction entries with
  | nil => simp
  | cons entry entries ih =>
    intro index
    obtain ⟨hentry, hnodup⟩ := List.nodup_cons.mp hnodup
    rw [List.foldl_cons, ih hnodup, Std.ExtTreeMap.getElem?_insert]
    by_cases hk : entry.1 = k
    · subst hk
      have hnot : (entry.1, x) ∉ entries := fun hmem =>
        hentry (List.mem_map.mpr ⟨_, hmem, rfl⟩)
      simp only [hnot, hentry, List.mem_cons, List.map_cons, Prod.ext_iff]
      simp [eq_comm]
    · simp only [List.mem_cons, List.map_cons, Prod.ext_iff]
      simp [hk, Ne.symm hk]

theorem mem_partners_iff : (k, x) ∈ p.partners ↔ (k, some x) ∈ p.entries := by
  rw [Pairing.partners_eq, List.mem_filterMap]
  constructor
  · rintro ⟨⟨k', y⟩, he, heq⟩
    obtain ⟨x', rfl, heq⟩ := Option.map_eq_some_iff.mp heq
    obtain ⟨rfl, rfl⟩ := Prod.mk.inj heq
    exact he
  · exact fun he => ⟨_, he, rfl⟩

theorem sublist_partners (p : Pairing) :
    (p.partners.map Prod.fst).Sublist (p.entries.map Prod.fst) := by
  rw [Pairing.partners_eq]
  induction p.entries with
  | nil => exact .refl _
  | cons entry entries ih =>
    obtain ⟨k, _ | x⟩ := entry
    · exact ih.cons _
    · exact ih.cons_cons _

/-- The index of a plan says of every key what the pairing says. -/
theorem getElem?_index_of_mem_entries {o : Option NodeId} (hnodup : (p.entries.map Prod.fst).Nodup)
    (hentry : (k, o) ∈ p.entries) : (ofPairing e p claimed).index[k]? = o := by
  ext x
  rw [ofPairing, getElem?_foldl_insert (hnodup.sublist (sublist_partners p)), mem_partners_iff]
  constructor
  · rintro (hx | ⟨-, hx⟩)
    · exact congrArg Prod.snd (List.inj_on_of_nodup_map hnodup hentry hx rfl)
    · simp at hx
  · exact fun hx => .inl (hx ▸ hentry)

/-- The index of a plan has exactly the nodes with a partner. -/
theorem getElem?_index (h : Fits t root claimed p) (hq : q ∈ p.items) :
    (ofPairing e p claimed).index[q.key]? = q.partner? :=
  getElem?_index_of_mem_entries h.nodup (Pairing.mem_entries hq)

/-! ### Deletions -/

theorem mem_unpairedOf {cs : List Branch} : x ∈ unpaired.unpairedOf claimed cs ↔
    ∃ c ∈ cs, c.id ∈ claimed ∧ x ∈ unpaired claimed c ∨ c.id ∉ claimed ∧ x = c.id := by
  induction cs with
  | nil => simp [unpaired.unpairedOf]
  | cons c cs ih =>
    rw [unpaired.unpairedOf, List.mem_append, ih]
    by_cases hc : c.id ∈ claimed <;> simp [hc]

theorem mem_unpaired : x ∈ unpaired claimed b ↔
    ∃ c ∈ b.children, c.id ∈ claimed ∧ x ∈ unpaired claimed c ∨ c.id ∉ claimed ∧ x = c.id := by
  cases b with
  | mk n cs => exact mem_unpairedOf

/-- What is deleted stands below the root, and nobody claims it. -/
theorem below_of_mem_unpaired (ht : t.WellFormed) (hb : b.Shows t) (hx : x ∈ unpaired claimed b) :
    x ∉ claimed ∧ t.Below x b.id := by
  induction b with
  | mk n cs ih =>
    obtain ⟨c, hc, hx⟩ := mem_unpaired.mp hx
    have hcn : t.Under c.id n.id := hb.under_of_mem_children ht hc
    rcases hx with ⟨-, hx⟩ | ⟨hclaimed, rfl⟩
    · obtain ⟨hclaimed, hbelow⟩ := ih c hc (hb.of_mem_children hc) hx
      exact ⟨hclaimed, hbelow.tail hcn⟩
    · exact ⟨hclaimed, .single hcn⟩

/-- The search for nodes to be deleted comes to every node that is alike. -/
theorem unpaired_subset (h : Covers t root claimed p) (he : p.existing? = some e) :
    ∀ q ∈ p.items, ∀ k c b ps, q = .alike k c b ps →
      ∀ x ∈ unpaired claimed b, x ∈ unpaired claimed e := by
  refine Pairing.items_induction ?_ fun q hq ih r hr k c b ps heq x hx => ?_
  · rintro k c b ps rfl x hx
    exact Option.some.inj he ▸ hx
  · obtain ⟨a, ha, hba⟩ := h.alike_below q hq r hr k c b ps heq
    have hclaimed : b.id ∈ claimed := by
      refine (h.mem_claimed _).mpr ⟨r, Pairing.mem_items_of_mem_children hr hq, ?_⟩
      rw [heq]
      exact List.mem_singleton_self _
    cases q with
    | same u b => exact nomatch hr
    | alike k' c' a' qs =>
      obtain rfl := Option.some.inj ha
      exact ih _ _ _ _ rfl x (mem_unpaired.mpr ⟨b, hba, .inl ⟨hclaimed, hx⟩⟩)
    | fresh k' c' qs => exact nomatch ha

/-- A child of a node that is alike is deleted, or else it is the partner of some node. -/
theorem mem_unpaired_or_partner (ht : t.WellFormed) (h : Covers t root claimed p)
    (he : p.existing? = some e) (hq : q ∈ p.items) (hsame : q.isSame = false)
    (hy : q.partner? = some y) (hx : t.Under x y) :
    x ∈ unpaired claimed e ∨ x ∈ claimed ∧ ∃ r ∈ p.items, r.partner? = some x := by
  cases q with
  | same u b => exact nomatch hsame
  | alike k c b ps =>
    obtain rfl := Option.some.inj hy
    by_cases hclaimed : x ∈ claimed
    · -- Who claims the child has it as a partner, since nobody claims it from further above.
      refine .inr ⟨hclaimed, ?_⟩
      obtain ⟨r, hr, hxr⟩ := (h.mem_claimed x).mp hclaimed
      refine ⟨r, hr, ?_⟩
      cases r with
      | same u b' =>
        obtain ⟨hshow, -⟩ := h.shows _ hr b' rfl
        rcases ((hshow.mem_ids_iff ht).mp hxr).eq_or_below with rfl | hbelow
        · rfl
        · -- Otherwise the parent would be claimed by the same branch.
          have hparent := (hshow.mem_ids_iff ht).mpr (hbelow.of_under hx)
          exact nomatch h.own_injective _ hr _ hq b.id hparent (List.mem_singleton_self _)
      | alike k' c' b' ps' => exact congrArg some (List.mem_singleton.mp hxr).symm
      | fresh k' c' ps' => exact nomatch hxr
    · left
      obtain ⟨hshow, -⟩ := h.shows _ hq b rfl
      have hmem := ht.mem_children_iff.mpr hx
      rw [hshow.children] at hmem
      obtain ⟨c', hc', rfl⟩ := List.mem_map.mp hmem
      exact unpaired_subset h he _ hq _ _ _ _ rfl _
        (mem_unpaired.mpr ⟨c', hc', .inr ⟨hclaimed, rfl⟩⟩)
  | fresh k c ps => exact nomatch hy

/-! ### The operations of each node -/

/-- The creation of a node, if it does not exist yet. -/
def createOf (parent : BranchKey) (followers : List BranchKey) : Pairing → List Operation
  | .fresh k c _ => [.create ⟨parent, followers⟩ k c]
  | _ => []

theorem createsBelow_cons (parent : BranchKey) (p : Pairing) (ps : List Pairing) :
    creates.createsBelow parent (p :: ps) =
      createOf parent (ps.map Pairing.key) p ++ creates p ++ creates.createsBelow parent ps := by
  cases p <;> rfl

theorem creates_eq (p : Pairing) : creates p = creates.createsBelow p.key p.children := by
  cases p <;> rfl

/-- Whether the children of a node stand in order from the beginning. -/
def inOrderAt (claimed : Pairing.Claimed) (p : Pairing) : Bool :=
  inOrder p.children
    (p.existing?.map fun b => (b.children.map Branch.id).filter claimed.contains)

/-- Where one of several siblings in order is to be created, all of them are. -/
theorem isFresh_of_inOrderAt {s : Pairing} (h : inOrderAt claimed q = true)
    (hnew : q.isFresh = true ∨ ∃ r ∈ q.children, r.isFresh = true) (hs : s ∈ q.children) :
    s.isFresh = true := by
  unfold inOrderAt at h
  cases hexisting : q.existing? with
  | none =>
    rw [hexisting] at h
    have hnone := List.all_eq_true.mp h s hs
    exact Pairing.partner?_eq_none_iff.mp (Option.isNone_iff_eq_none.mp hnone)
  | some b =>
    rcases hnew with hnew | ⟨r, hr, hnew⟩
    · have hpartner := Pairing.partner?_eq_none_iff.mpr hnew
      rw [Pairing.partner?_eq, hexisting] at hpartner
      exact nomatch hpartner
    · rw [hexisting, Option.map_some, inOrder, Bool.or_eq_true, List.isEmpty_iff,
        decide_eq_true_eq] at h
      rcases h with h | h
      · rw [h] at hs
        exact nomatch hs
      · -- The partners of the siblings in order would be existing nodes throughout.
        have hmem := List.mem_map_of_mem (f := Pairing.partner?) hr
        rw [h, Pairing.partner?_eq_none_iff.mpr hnew] at hmem
        obtain ⟨x, -, hx⟩ := List.mem_map.mp hmem
        exact nomatch hx

/-- The moves of the children of a node. -/
def movesAt (claimed : Pairing.Claimed) (p : Pairing) : List Operation :=
  if inOrderAt claimed p then [] else movesOf p.key p.children

theorem moves_eq (claimed : Pairing.Claimed) (p : Pairing) :
    moves claimed p = p.items.flatMap (movesAt claimed) := by
  have hbelow : ∀ ps, moves.movesBelow claimed ps = ps.flatMap (moves claimed) := by
    intro ps
    induction ps with
    | nil => rfl
    | cons q ps ih => rw [moves.movesBelow, List.flatMap_cons, ih]
  refine Pairing.eq_flatMap_items (fun q => ?_) p
  rw [← hbelow]
  cases q with
  | same u b => simp [moves, movesAt, Pairing.children, movesOf, moves.movesBelow]
  | alike k c b ps => rfl
  | fresh k c ps => rfl

/-- The update of a node whose partner has another content. -/
def updatesAt : Pairing → List Operation
  | .alike k c b _ => if c.comparable = b.content.comparable then [] else [.update k b.id c]
  | _ => []

theorem updates_eq (p : Pairing) : updates p = p.items.flatMap updatesAt := by
  have hbelow : ∀ ps, updates.updatesBelow ps = ps.flatMap updates := by
    intro ps
    induction ps with
    | nil => rfl
    | cons q ps ih => rw [updates.updatesBelow, List.flatMap_cons, ih]
  refine Pairing.eq_flatMap_items (fun q => ?_) p
  rw [← hbelow]
  cases q <;> rfl

/-! ### Where the operations of a plan come from -/

theorem eq_create_of_mem_createOf {parent : BranchKey} {followers : List BranchKey} {o : Operation}
    (ho : o ∈ createOf parent followers p) :
    p.isFresh = true ∧ o = .create ⟨parent, followers⟩ p.key p.content := by
  cases p with
  | same u b => exact nomatch ho
  | alike k c b ps => exact nomatch ho
  | fresh k c ps => exact ⟨rfl, List.mem_singleton.mp ho⟩

/-- Every creation is that of a new child of some node. -/
theorem exists_of_mem_creates {o : Operation} (ho : o ∈ creates p) :
    ∃ q ∈ p.items, ∃ rs c ps, q.children = rs ++ c :: ps ∧ c.isFresh = true ∧
      o = .create ⟨q.key, ps.map Pairing.key⟩ c.key c.content := by
  induction p with
  | node p ih =>
    have hlist : ∀ ps rs : List Pairing, p.children = rs ++ ps →
        o ∈ creates.createsBelow p.key ps → ∃ q ∈ p.items, ∃ rs c ps, q.children = rs ++ c :: ps ∧
          c.isFresh = true ∧ o = .create ⟨q.key, ps.map Pairing.key⟩ c.key c.content := by
      intro ps
      induction ps with
      | nil => exact fun _ _ ho => nomatch ho
      | cons c ps ihps =>
        intro rs hchildren ho
        have hc : c ∈ p.children := hchildren ▸ List.mem_append_right _ List.mem_cons_self
        rw [createsBelow_cons, List.mem_append, List.mem_append] at ho
        rcases ho with (ho | ho) | ho
        · exact ⟨p, p.mem_items_self, rs, c, ps, hchildren, eq_create_of_mem_createOf ho⟩
        · obtain ⟨q, hq, hrest⟩ := ih c hc ho
          exact ⟨q, Pairing.mem_items.mpr (.inr ⟨c, hc, hq⟩), hrest⟩
        · exact ihps (rs ++ [c]) (by rw [hchildren, List.append_assoc]; rfl) ho
    exact hlist p.children [] rfl (creates_eq p ▸ ho)

/-- Every move is that of a child of some node. -/
theorem exists_of_mem_moves {o : Operation} (ho : o ∈ moves claimed p) :
    ∃ q ∈ p.items, ∃ rs c ps, q.children = rs ++ c :: ps ∧
      o = .move ⟨q.key, ps.map Pairing.key⟩ c.key c.partner? := by
  have hlist : ∀ (parent : BranchKey) (ps : List Pairing), o ∈ movesOf parent ps →
      ∃ rs c qs, ps = rs ++ c :: qs ∧ o = .move ⟨parent, qs.map Pairing.key⟩ c.key c.partner? := by
    intro parent ps
    induction ps with
    | nil => exact fun ho => nomatch ho
    | cons c ps ih =>
      intro ho
      rcases List.mem_append.mp ho with ho | ho
      · obtain ⟨rs, d, qs, rfl, heq⟩ := ih ho
        exact ⟨c :: rs, d, qs, rfl, heq⟩
      · exact ⟨[], c, ps, rfl, List.mem_singleton.mp ho⟩
  rw [moves_eq] at ho
  obtain ⟨q, hq, ho⟩ := List.mem_flatMap.mp ho
  unfold movesAt at ho
  split at ho
  · exact nomatch ho
  · obtain ⟨rs, c, ps, hchildren, ho⟩ := hlist _ _ ho
    exact ⟨q, hq, rs, c, ps, hchildren, ho⟩

/-- Every update is that of a node that is merely alike. -/
theorem exists_of_mem_updates {o : Operation} (ho : o ∈ updates p) :
    ∃ k c b ps, .alike k c b ps ∈ p.items ∧ o = .update k b.id c := by
  rw [updates_eq] at ho
  obtain ⟨q, hq, ho⟩ := List.mem_flatMap.mp ho
  unfold updatesAt at ho
  split at ho
  · next k c b ps =>
    split at ho
    · exact nomatch ho
    · exact ⟨k, c, b, ps, hq, List.mem_singleton.mp ho⟩
  · exact nomatch ho

/-- The keys under which operations create nodes. -/
def createdKeys (os : List Operation) : List BranchKey :=
  os.filterMap fun
    | .create _ key _ => some key
    | _ => none

theorem createdKeys_append (os os' : List Operation) :
    createdKeys (os ++ os') = createdKeys os ++ createdKeys os' :=
  List.filterMap_append

theorem createdKeys_eq_nil {os : List Operation} (h : ∀ o ∈ os, o.priority ≠ 200) :
    createdKeys os = [] := by
  refine List.filterMap_eq_nil_iff.mpr fun o ho => ?_
  cases o with
  | create destination key content => exact absurd rfl (h _ ho)
  | _ => rfl

theorem createdKeys_createOf (parent : BranchKey) (followers : List BranchKey) (p : Pairing) :
    createdKeys (createOf parent followers p) = ([p].filter Pairing.isFresh).map Pairing.key := by
  cases p <;> rfl

/-- A new node is created under its own key, and once. -/
theorem createdKeys_creates (p : Pairing) : createdKeys (creates p) =
    ((Pairing.allItems p.children).filter Pairing.isFresh).map Pairing.key := by
  induction p with
  | node p ih =>
    have hlist : ∀ (parent : BranchKey) (ps : List Pairing),
        (∀ q ∈ ps, createdKeys (creates q) =
          ((Pairing.allItems q.children).filter Pairing.isFresh).map Pairing.key) →
        createdKeys (creates.createsBelow parent ps) =
          ((Pairing.allItems ps).filter Pairing.isFresh).map Pairing.key := by
      intro parent ps
      induction ps with
      | nil => exact fun _ => rfl
      | cons c ps ihps =>
        intro hps
        rw [List.forall_mem_cons] at hps
        have hitems : Pairing.allItems (c :: ps) =
            [c] ++ Pairing.allItems c.children ++ Pairing.allItems ps := by
          rw [Pairing.allItems_cons, Pairing.items_eq]
          rfl
        simp only [createsBelow_cons, createdKeys_append, createdKeys_createOf, hps.1, ihps hps.2,
          hitems, List.filter_append, List.map_append]
    rw [creates_eq]
    exact hlist p.key p.children ih

theorem nodup_createdKeys_of_nodup (hkeys : (p.items.map Pairing.key).Nodup) :
    (createdKeys (creates p)).Nodup := by
  rw [Pairing.items_eq] at hkeys
  rw [createdKeys_creates]
  exact (List.nodup_cons.mp hkeys).2.sublist (List.filter_sublist.map _)

theorem nodup_createdKeys (h : Fits t root claimed p) : (createdKeys (creates p)).Nodup :=
  nodup_createdKeys_of_nodup h.nodup_keys

/-! ### The order of the operations -/

theorem priority_of_mem_deletes {o : Operation} (ho : o ∈ deletes claimed e) : o.priority = 100 := by
  obtain ⟨x, -, rfl⟩ := List.mem_map.mp ho
  rfl

theorem priority_of_mem_creates {o : Operation} (ho : o ∈ creates p) : o.priority = 200 := by
  obtain ⟨-, -, -, -, -, -, -, rfl⟩ := exists_of_mem_creates ho
  rfl

theorem priority_of_mem_moves {o : Operation} (ho : o ∈ moves claimed p) : o.priority = 300 := by
  obtain ⟨-, -, -, -, -, -, rfl⟩ := exists_of_mem_moves ho
  rfl

theorem priority_of_mem_updates {o : Operation} (ho : o ∈ updates p) : o.priority = 400 := by
  obtain ⟨-, -, -, -, -, rfl⟩ := exists_of_mem_updates ho
  rfl

/-- The operations of a plan are in the order of their priority already. -/
theorem sort_operations (e : Branch) (p : Pairing) (claimed : Pairing.Claimed) :
    Operation.sort (ofPairing e p claimed).operations = (ofPairing e p claimed).operations := by
  -- Operations of the same kind have the same priority, and the kinds follow one another.
  have hone : ∀ (os : List Operation) (k : Nat), (∀ o ∈ os, o.priority = k) →
      os.Pairwise fun a b => (decide (a.priority ≤ b.priority)) = true := by
    intro os k hos
    refine List.pairwise_of_forall_mem_list fun a ha b hb => ?_
    rw [hos a ha, hos b hb]
    simp
  have hdeletes : ∀ o ∈ deletes claimed e, o.priority = 100 := fun _ => priority_of_mem_deletes
  have hcreates : ∀ o ∈ creates p, o.priority = 200 := fun _ => priority_of_mem_creates
  have hmoves : ∀ o ∈ moves claimed p, o.priority = 300 := fun _ => priority_of_mem_moves
  have hupdates : ∀ o ∈ updates p, o.priority = 400 := fun _ => priority_of_mem_updates
  refine List.mergeSort_of_pairwise ?_
  simp only [ofPairing, List.pairwise_append, List.mem_append]
  refine ⟨⟨⟨hone _ _ hdeletes, hone _ _ hcreates, fun a ha b hb => ?_⟩, hone _ _ hmoves,
    fun a ha b hb => ?_⟩, hone _ _ hupdates, fun a ha b hb => ?_⟩
  · simp [hdeletes a ha, hcreates b hb]
  · rcases ha with ha | ha
    · simp [hdeletes a ha, hmoves b hb]
    · simp [hcreates a ha, hmoves b hb]
  · rcases ha with (ha | ha) | ha
    · simp [hdeletes a ha, hupdates b hb]
    · simp [hcreates a ha, hupdates b hb]
    · simp [hmoves a ha, hupdates b hb]

/-- Only creations create. -/
theorem createdKeys_operations (e : Branch) (p : Pairing) (claimed : Pairing.Claimed) :
    createdKeys (ofPairing e p claimed).operations = createdKeys (creates p) := by
  have hdeletes : createdKeys (deletes claimed e) = [] :=
    createdKeys_eq_nil fun o ho => by simp [priority_of_mem_deletes ho]
  have hmoves : createdKeys (moves claimed p) = [] :=
    createdKeys_eq_nil fun o ho => by simp [priority_of_mem_moves ho]
  have hupdates : createdKeys (updates p) = [] :=
    createdKeys_eq_nil fun o ho => by simp [priority_of_mem_updates ho]
  simp only [ofPairing, createdKeys_append, hdeletes, hmoves, hupdates, List.nil_append,
    List.append_nil]

/-! ### The order of the creations -/

theorem exists_createsBelow_append (parent : BranchKey) (rs ps : List Pairing) :
    ∃ os, creates.createsBelow parent (rs ++ ps) = os ++ creates.createsBelow parent ps := by
  induction rs with
  | nil => exact ⟨[], rfl⟩
  | cons r rs ih =>
    obtain ⟨os, hos⟩ := ih
    refine ⟨createOf parent ((rs ++ ps).map Pairing.key) r ++ creates r ++ os, ?_⟩
    rw [List.cons_append, createsBelow_cons, hos, ← List.append_assoc]

/-- A new child of a node is created, and where the node is new itself it is created before. -/
theorem exists_create (hq : q ∈ p.items) {r : Pairing} (hr : r ∈ q.children)
    (hnew : r.isFresh = true) : ∃ followers before after,
      creates p = before ++ .create ⟨q.key, followers⟩ r.key r.content :: after ∧
        (q = p ∨ (q.isFresh = true → q.key ∈ createdKeys before)) := by
  induction p with
  | node p ih =>
    rcases Pairing.mem_items.mp hq with rfl | ⟨c, hc, hq⟩
    · obtain ⟨rs, ps, hchildren⟩ := List.append_of_mem hr
      obtain ⟨os, hos⟩ := exists_createsBelow_append q.key rs (r :: ps)
      refine ⟨ps.map Pairing.key, os, creates r ++ creates.createsBelow q.key ps, ?_, .inl rfl⟩
      rw [creates_eq, hchildren, hos, createsBelow_cons]
      cases r with
      | same u b => exact nomatch hnew
      | alike k c b qs => exact nomatch hnew
      | fresh k c qs => rfl
    · -- The creations at and below the child follow its own one.
      obtain ⟨followers, before, after, hcreates, horder⟩ := ih c hc hq
      obtain ⟨rs, ps, hchildren⟩ := List.append_of_mem hc
      obtain ⟨os, hos⟩ := exists_createsBelow_append p.key rs (c :: ps)
      refine ⟨followers, os ++ createOf p.key (ps.map Pairing.key) c ++ before,
        after ++ creates.createsBelow p.key ps, ?_, .inr fun hqnew => ?_⟩
      · rw [creates_eq, hchildren, hos, createsBelow_cons, hcreates]
        simp only [List.append_assoc, List.cons_append]
      · rw [createdKeys_append, createdKeys_append, createdKeys_createOf]
        rcases horder with rfl | horder
        · simp [hqnew]
        · exact List.mem_append_right _ (horder hqnew)

end Plan

/-- There is a plan for any two branches with roots of the same kind. -/
theorem plan_eq_ok {t u : Tree} {root targetRoot : NodeId} {e w : Branch}
    (he : t.branch? root = some e) (hw : u.branch? targetRoot = some w)
    (hkind : e.node.kind.same w.node.kind = true) :
    plan t root u targetRoot = .ok (Plan.ofBranches e w) := by
  simp only [plan, requireBranch, he, hw, bind, Except.bind, hkind, if_true]
  rfl

end ContentTree.Merge
