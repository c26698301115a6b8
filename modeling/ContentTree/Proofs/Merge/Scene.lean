import ContentTree.Proofs.Draft.Documents
import ContentTree.Proofs.Merge.Plan
import ContentTree.Proofs.Merge.Step

/-!
# The tree in the course of a merge

Between the deletions and the updates of a merge, a tree is related to the tree before the merge and
to the pairing in the same way all the time. Deleted nodes have lost their parents; nodes that are
put into place stand below the node that the pairing puts them below; and everybody else stands
where it stood. Nodes that are merely alike, and new nodes, are always below the root, whereas a
branch that exists already as a whole may for a while be in the trash.

## Main definitions

* `Trimmed`: a tree from which nodes have been deleted.
* `Stage`: what holds of the tree and the index between the deletions and the updates, whichever
  operations are skipped.
* `Scene`: what holds in addition where none is skipped.
* `Enters`: a node is put where the pairing wants it.

## Main results

* `stage_of_trimmed`, `scene_of_trimmed`: both hold after the deletions.
* `Stage.movable`: no move can make a node its own ancestor.
* `Enters.stage`, `Enters.scene`: both still hold after a node was put where the pairing wants it.
-/

namespace ContentTree.Merge

open Relation
open ContentTree.Tree (Puts)

variable {t d d' : Tree} {root x y z w : NodeId} {p q r s c : Pairing} {claimed : Pairing.Claimed}
  {index index' : KeyIndex} {gone : List NodeId} {e b : Branch} {u : Target}

/-! ### After the deletions -/

/-- A tree from which nodes have been deleted. -/
structure Trimmed (t d : Tree) (gone : List NodeId) : Prop where
  sound : d.Sound
  sharing : d.sharing = t.sharing
  old : ∀ {id n}, t.node? id = some n → ∃ m, d.node? id = some m ∧ m.toContent = n.toContent
  children : ∀ z, d.children z = (t.children z).filter (· ∉ gone)
  document : ∀ z, d.document? z = t.document? z ∨ d.document? z = none

theorem Trimmed.refl (h : t.Sound) : Trimmed t t [] where
  sound := h
  sharing := rfl
  old hn := ⟨_, hn, rfl⟩
  children z := by simp
  document z := .inl rfl

theorem Trimmed.discard {d : Draft} (h : Trimmed t d.tree gone) (ht : t.WellFormed) (x : NodeId) :
    Trimmed t (d.discard x).tree (x :: gone) where
  sound := h.sound.discard x
  sharing :=
    (congrArg Prod.fst (Draft.relocated_discard h.sound.toWellFormed x).rest).trans h.sharing
  old hn := by
    obtain ⟨m, hm, hcontent⟩ := h.old hn
    obtain ⟨m', hm', hcontent', -⟩ :=
      (Draft.relocated_discard h.sound.toWellFormed x).exists_node hm
    exact ⟨m', hm', hcontent'.trans hcontent⟩
  children z := by
    rw [Draft.children_discard h.sound.toWellFormed, h.children,
      ((ht.nodup_children z).filter _).erase_eq_filter, List.filter_filter]
    exact List.filter_congr fun a _ => by by_cases ha : a = x <;> simp [ha]
  document z := by
    rcases Draft.document?_discard h.sound.toWellFormed x z with hz | hz
    · rw [hz]
      exact h.document z
    · exact .inr hz

theorem Trimmed.under_iff (h : Trimmed t d gone) (ht : t.WellFormed) :
    d.Under x y ↔ t.Under x y ∧ x ∉ gone := by
  rw [← h.sound.mem_children_iff, h.children, List.mem_filter, ht.mem_children_iff,
    decide_eq_true_eq]

/-! ### The scene -/

/-- What holds of the tree and the index between the deletions and the updates. -/
structure Stage (t : Tree) (root : NodeId) (p : Pairing) (index : KeyIndex) (d : Tree) : Prop where
  sound : d.Sound
  sharing : d.sharing = t.sharing
  old : ∀ {id n}, t.node? id = some n → ∃ m, d.node? id = some m ∧ m.toContent = n.toContent
  /-- Partners are in the index. -/
  partner : ∀ q ∈ p.items, ∀ x, q.partner? = some x → index[q.key]? = some x
  /-- New nodes have the content they are to have. -/
  fresh : ∀ q ∈ p.items, q.isFresh = true → ∀ x, index[q.key]? = some x →
    t.node? x = none ∧ ∃ m, d.node? x = some m ∧ m.toContent.comparable = q.content.comparable
  injective : ∀ q ∈ p.items, ∀ r ∈ p.items, ∀ x, index[q.key]? = some x →
    index[r.key]? = some x → q = r
  /-- New nodes, and nodes that are alike, stand below the node they are to stand below. -/
  spine : ∀ q ∈ p.items, ∀ r ∈ q.children, r.isSame = false → ∀ x, index[r.key]? = some x →
    ∃ y, index[q.key]? = some y ∧ d.Under x y
  /-- Other nodes of the pairing stand there, too, unless they stand where they stood. -/
  stands : ∀ q ∈ p.items, ∀ r ∈ q.children, ∀ x, index[r.key]? = some x → ∀ z, d.Under x z →
    t.Under x z ∨ index[q.key]? = some z
  /-- Nothing changes at and above the root. -/
  above : ∀ z, t.Within root z → ∀ w, d.Under z w ↔ t.Under z w
  document : ∀ z, t.node? z = none ∨ t.Within z root →
    d.document? z = t.document? root ∨ d.document? z = none

/-- What holds in addition where no operation is skipped. -/
structure Scene (t : Tree) (root : NodeId) (p : Pairing) (index : KeyIndex) (d : Tree) : Prop
    extends Stage t root p index d where
  /-- Nothing changes inside of branches that exist already as a whole. -/
  inside : ∀ q ∈ p.items, ∀ u b, q = .same u b → ∀ z ∈ b.ids, d.children z = t.children z
  /-- Whoever stands below a node of the pairing is a node of the pairing, too. -/
  strays : ∀ q ∈ p.items, q.isSame = false → ∀ x, index[q.key]? = some x → ∀ z, d.Under z x →
    ∃ r ∈ p.items, index[r.key]? = some z

section Trimmed

variable (ht : t.WellFormed) (hf : p.Fits t root claimed) (he : p.existing? = some e)
include ht hf he

/-- What is to be deleted stands below the root, and nobody claims it. -/
theorem below_root_of_mem_unpaired (hx : x ∈ Plan.unpaired claimed e) :
    x ∉ claimed ∧ t.Below x root := by
  obtain ⟨b, hb, rfl⟩ := hf.exists_root
  obtain rfl := Option.some.inj (he.symm.trans hb)
  exact Plan.below_of_mem_unpaired ht (hf.shows p p.mem_items_self e he).1 hx

variable (hc : t.Coherent) (h : Trimmed t d gone)
  (hindex : ∀ q ∈ p.items, index[q.key]? = q.partner?)
include hc h hindex

/-- After deletions the stage is set, whether or not all of them have taken place. -/
theorem stage_of_trimmed (hgone : ∀ x ∈ gone, x ∈ Plan.unpaired claimed e) :
    Stage t root p index d := by
  have hbelow : ∀ x ∈ gone, x ∉ claimed ∧ t.Below x root := fun x hx =>
    below_root_of_mem_unpaired ht hf he (hgone x hx)
  have hunder : ∀ {x y}, d.Under x y ↔ t.Under x y ∧ x ∉ gone := h.under_iff ht
  refine
    { sound := h.sound, sharing := h.sharing, old := h.old
      partner := fun q hq x hx => (hindex q hq).trans hx
      fresh := ?fresh, injective := ?injective, spine := ?spine
      stands := fun _ _ _ _ _ _ _ hz => .inl (hunder.mp hz).1
      above := ?above, document := ?document }
  case fresh =>
    intro q hq hfresh x hx
    rw [hindex q hq, Pairing.partner?_eq_none_iff.mpr hfresh] at hx
    exact nomatch hx
  case injective =>
    intro q hq r hr x hx hx'
    rw [hindex q hq] at hx
    rw [hindex r hr] at hx'
    exact hf.partner_injective hq hr hx hx'
  case spine =>
    intro q hq r hr hsame x hx
    have hrp := Pairing.mem_items_of_mem_children hr hq
    rw [hindex r hrp] at hx
    cases r with
    | same u b => exact nomatch hsame
    | alike k c b ps =>
      -- The node stands where it stood, since a claimed node is not deleted.
      obtain rfl := Option.some.inj hx
      obtain ⟨a, ha, hba⟩ := hf.alike_below q hq _ hr _ _ _ _ rfl
      refine ⟨a.id, by rw [hindex q hq, Pairing.partner?_eq, ha]; rfl, hunder.mpr ⟨?_, ?_⟩⟩
      · rw [← ht.mem_children_iff, (hf.shows q hq a ha).1.children]
        exact List.mem_map_of_mem hba
      · exact fun hb => (hbelow _ hb).1
          ((hf.mem_claimed _).mpr ⟨_, hrp, List.mem_singleton_self _⟩)
    | fresh k c ps => exact nomatch hx
  case above =>
    -- What is deleted stands below the root.
    intro z hz w
    rw [hunder]
    exact and_iff_left fun hzgone => ht.acyclic z (TransGen.trans_left (hbelow z hzgone).2 hz)
  case document =>
    intro z hz
    rcases h.document z with hd | hd
    · rw [hd]
      rcases hz with hz | hz
      · exact .inr (by rw [Tree.document?, hz]; rfl)
      · exact .inl (hc.document_within hz)
    · exact .inr hd

/-- After all deletions the scene is set. -/
theorem scene_of_trimmed (hgone : ∀ x, x ∈ gone ↔ x ∈ Plan.unpaired claimed e) :
    Scene t root p index d := by
  have hunder : ∀ {x y}, d.Under x y ↔ t.Under x y ∧ x ∉ gone := h.under_iff ht
  refine
    { toStage := stage_of_trimmed ht hf he hc h hindex fun x => (hgone x).mp
      inside := ?inside, strays := ?strays }
  case inside =>
    rintro q hq u b rfl z hz
    rw [h.children, List.filter_eq_self]
    intro x hx
    rw [decide_eq_true_eq]
    -- Whoever is inside of the branch is claimed with it.
    obtain ⟨hbshow, -⟩ := hf.shows _ hq b rfl
    have hxb : x ∈ b.ids := (hbshow.mem_ids_iff ht).mpr
      (.head (ht.mem_children_iff.mp hx) ((hbshow.mem_ids_iff ht).mp hz))
    exact fun hxgone => (below_root_of_mem_unpaired ht hf he ((hgone x).mp hxgone)).1
      ((hf.mem_claimed x).mpr ⟨_, hq, hxb⟩)
  case strays =>
    intro q hq hsame x hx z hz
    rw [hindex q hq] at hx
    obtain ⟨hzx, hzgone⟩ := hunder.mp hz
    rcases Plan.mem_unpaired_or_partner ht hf.toCovers he hq hsame hx hzx with hz | ⟨-, r, hr, hrz⟩
    · exact absurd ((hgone z).mpr hz) hzgone
    · exact ⟨r, hr, (hindex r hr).trans hrz⟩

end Trimmed

namespace Stage

variable (h : Stage t root p index d) (hf : p.Fits t root claimed) (ht : t.WellFormed)
include h

/-! ### Nodes of the pairing -/

theorem partner_of_old (hq : q ∈ p.items) (hx : index[q.key]? = some x) {n : Node}
    (hn : t.node? x = some n) : q.partner? = some x := by
  cases hpartner : q.partner? with
  | none =>
    have hfresh := Pairing.partner?_eq_none_iff.mp hpartner
    exact nomatch hn.symm.trans (h.fresh q hq hfresh x hx).1
  | some y => rw [← hx, h.partner q hq y hpartner]

theorem partner_of_not_fresh (hq : q ∈ p.items) (hx : index[q.key]? = some x)
    (hfresh : q.isFresh = false) : q.partner? = some x := by
  cases hpartner : q.partner? with
  | none => exact nomatch (Pairing.partner?_eq_none_iff.mp hpartner).symm.trans hfresh
  | some y => rw [← hx, h.partner q hq y hpartner]

include hf

/-- The node exists, and is of the kind it is to be of. -/
theorem exists_node (hq : q ∈ p.items) (hx : index[q.key]? = some x) :
    ∃ m, d.node? x = some m ∧ m.kind.same q.content.kind = true := by
  cases q with
  | same u b =>
    obtain rfl := Option.some.inj (h.partner_of_not_fresh hq hx rfl)
    obtain ⟨m, hm, hcontent⟩ := h.old (hf.shows _ hq b rfl).1.node?
    refine ⟨m, hm, ?_⟩
    have hequal := hf.equals _ hq u b rfl
    obtain ⟨l, c, us⟩ := u
    obtain ⟨n, cs⟩ := b
    rw [show m.kind = n.kind from congrArg Content.kind hcontent]
    exact Kind.same_symm (Content.same_of_comparable_eq (Labelled.equals_mk.mp hequal).1)
  | alike k c b ps =>
    obtain rfl := Option.some.inj (h.partner_of_not_fresh hq hx rfl)
    obtain ⟨m, hm, hcontent⟩ := h.old (hf.shows _ hq b rfl).1.node?
    refine ⟨m, hm, ?_⟩
    rw [show m.kind = b.node.kind from congrArg Content.kind hcontent]
    exact hf.kind _ hq k c b ps rfl
  | fresh k c ps =>
    obtain ⟨-, m, hm, hcontent⟩ := h.fresh _ hq rfl x hx
    exact ⟨m, hm, Content.same_of_comparable_eq hcontent⟩

theorem new_or_within (hq : q ∈ p.items) (hx : index[q.key]? = some x) :
    t.node? x = none ∨ t.Within x root := by
  cases hfresh : q.isFresh with
  | true => exact .inl (h.fresh q hq hfresh x hx).1
  | false =>
    obtain ⟨b, hb, rfl⟩ := Option.map_eq_some_iff.mp
      (Pairing.partner?_eq q ▸ h.partner_of_not_fresh hq hx hfresh)
    exact .inr (hf.shows q hq b hb).2

/-- On the way up from a node there are first the nodes above it in the pairing, and then those
above the root. -/
theorem above_of_within (hq : q ∈ p.items) (hsame : q.isSame = false)
    (hy : index[q.key]? = some y) (hw : d.Within y x) :
    (∃ r ∈ p.items, index[r.key]? = some x ∧ q ∈ r.items) ∨ t.Below root x := by
  induction hw with
  | refl => exact .inl ⟨q, hq, hy, q.mem_items_self⟩
  | @tail x z _ hstep ih =>
    rcases ih with ⟨r, hr, hx, hqr⟩ | hx
    · rcases Pairing.eq_or_exists_parent hr with rfl | ⟨s, hs, hrs⟩
      · -- From the root the way leaves the pairing, and stays above the root.
        obtain rfl := Option.some.inj ((h.partner r hr _ hf.root_alike.2).symm.trans hx)
        exact .inr (.single ((h.above _ .refl z).mp hstep))
      · have hrsame : r.isSame = false := by
          cases r with
          | same u b => rw [← List.mem_singleton.mp hqr, hsame]
          | alike k c b ps => rfl
          | fresh k c ps => rfl
        obtain ⟨w, hw, hxw⟩ := h.spine s hs r hrs hrsame x hx
        obtain rfl := hxw.eq hstep
        refine .inl ⟨s, hs, hw, Pairing.mem_items_trans hqr ?_⟩
        exact Pairing.mem_items.mpr (.inr ⟨r, hrs, r.mem_items_self⟩)
    · exact .inr (hx.tail ((h.above _ hx.within z).mp hstep))

include ht

/-- Nodes of the pairing other than the root do not stand above the root. -/
theorem not_above (hq : q ∈ p.items) (hc : c ∈ q.children) (hx : index[c.key]? = some x) :
    ¬ t.Within root x := by
  intro hw
  obtain ⟨b, hb, hroot⟩ := hf.exists_root
  obtain ⟨n, hn⟩ := ht.exists_of_within hw (hroot ▸ (hf.shows p p.mem_items_self b hb).1.node?)
  have hcp := Pairing.mem_items_of_mem_children hc hq
  have hown := Pairing.mem_own_of_partner? (h.partner_of_old hcp hx hn)
  exact ht.acyclic x (TransGen.trans_left (hf.below q hq c hc x hown) hw)

/-- A node can be moved below the node it is to stand below. -/
theorem movable (hq : q ∈ p.items) (hc : c ∈ q.children) (hy : index[q.key]? = some y)
    (hx : index[c.key]? = some x) : Draft.Movable d y x where
  exists_parent := (h.exists_node hf hq hy).imp fun _ => And.left
  exists_child := by
    obtain ⟨m, hm, hkind⟩ := h.exists_node hf (Pairing.mem_items_of_mem_children hc hq) hx
    refine ⟨m, hm, ?_⟩
    rw [← Kind.isPage_eq_of_same hkind]
    exact (hf.plain q hq c hc).2.2
  not_within hw := by
    rcases h.above_of_within hf hq (Pairing.isSame_eq_false_of_child hc) hy hw with
      ⟨r, hr, hrx, hqr⟩ | hbelow
    · -- A node would have to stand below its own child in the pairing.
      obtain rfl := h.injective r hr c (Pairing.mem_items_of_mem_children hc hq) x hrx hx
      exact Pairing.not_mem_items_of_child hc hqr
    · exact h.not_above hf ht hq hc hx hbelow.within

end Stage

/-! ### Nodes that are put into place -/

/-- A node is put below the node it is to stand below: the node that stands for it already, or a new
one. -/
structure Enters (p : Pairing) (index index' : KeyIndex) (d d' : Tree) (q c : Pairing)
    (y x : NodeId) (reference : Option NodeId) : Prop where
  item : q ∈ p.items
  child : c ∈ q.children
  parent : index[q.key]? = some y
  puts : Puts d d' y x reference
  index_eq : ∀ k, index'[k]? = if k = c.key then some x else index[k]?
  known_or_new : index[c.key]? = some x ∨ index[c.key]? = none ∧ c.isFresh = true ∧
    d.node? x = none ∧ ∃ m, d'.node? x = some m ∧ m.toContent.comparable = c.content.comparable

namespace Enters

variable {reference : Option NodeId} (he : Enters p index index' d d' q c y x reference)
include he

theorem child_item : c ∈ p.items :=
  Pairing.mem_items_of_mem_children he.child he.item

theorem index_self : index'[c.key]? = some x := by
  rw [he.index_eq, if_pos rfl]

/-- No entry of the index is lost. -/
theorem grows {k : BranchKey} (hz : index[k]? = some z) : index'[k]? = some z := by
  rw [he.index_eq]
  split
  · next hk =>
    rw [hk] at hz
    rcases he.known_or_new with hx | ⟨hx, -⟩
    · rw [← hx, hz]
    · exact nomatch hx.symm.trans hz
  · exact hz

section

variable (h : Stage t root p index d) (hf : p.Fits t root claimed)
include hf

theorem index_ne (hr : r ∈ p.items) (hne : r ≠ c) : index'[r.key]? = index[r.key]? := by
  rw [he.index_eq, if_neg fun hkey => hne (hf.key_injective hr he.child_item hkey)]

include h

/-- The index says of the node that it is the one put into place, and of the others what it said. -/
theorem eq_or_ne (hr : r ∈ p.items) (hz : index'[r.key]? = some z) :
    r = c ∧ z = x ∨ r ≠ c ∧ z ≠ x ∧ index[r.key]? = some z := by
  by_cases hrc : r = c
  · subst hrc
    exact .inl ⟨rfl, Option.some.inj (hz.symm.trans he.index_self)⟩
  · rw [he.index_ne hf hr hrc] at hz
    refine .inr ⟨hrc, ?_, hz⟩
    rintro rfl
    rcases he.known_or_new with hx | ⟨-, -, hx, -⟩
    · exact hrc (h.injective r hr c he.child_item z hz hx)
    · obtain ⟨m, hm, -⟩ := h.exists_node hf hr hz
      exact Option.some_ne_none _ (hm.symm.trans hx)

omit hf

/-- A node that existed before the merge has an entry in the index already. -/
theorem index_of_old {n : Node} (hn : t.node? x = some n) : index[c.key]? = some x := by
  rcases he.known_or_new with hx | ⟨-, -, hx, -⟩
  · exact hx
  · obtain ⟨m, hm, -⟩ := h.old hn
    exact nomatch hm.symm.trans hx

theorem injective (hf : p.Fits t root claimed) (hr : r ∈ p.items) (hs : s ∈ p.items)
    (hz : index'[r.key]? = some z) (hz' : index'[s.key]? = some z) : r = s := by
  rcases he.eq_or_ne h hf hr hz with ⟨rfl, rfl⟩ | ⟨-, hne, hz⟩
  · rcases he.eq_or_ne h hf hs hz' with ⟨rfl, -⟩ | ⟨-, hne, -⟩
    · rfl
    · exact absurd rfl hne
  · rcases he.eq_or_ne h hf hs hz' with ⟨-, rfl⟩ | ⟨-, -, hz'⟩
    · exact absurd rfl hne
    · exact h.injective r hr s hs z hz hz'

theorem fresh (hf : p.Fits t root claimed) (hr : r ∈ p.items) (hfresh : r.isFresh = true)
    (hz : index'[r.key]? = some z) :
    t.node? z = none ∧
      ∃ m, d'.node? z = some m ∧ m.toContent.comparable = r.content.comparable := by
  have hkept : index[r.key]? = some z → t.node? z = none ∧
      ∃ m, d'.node? z = some m ∧ m.toContent.comparable = r.content.comparable := by
    intro hz
    obtain ⟨hnone, m, hm, hcontent⟩ := h.fresh r hr hfresh z hz
    obtain ⟨m', hm', hcontent'⟩ := he.puts.content hm
    exact ⟨hnone, m', hm', by rw [hcontent', hcontent]⟩
  rcases he.eq_or_ne h hf hr hz with ⟨rfl, rfl⟩ | ⟨-, -, hz⟩
  · rcases he.known_or_new with hx | ⟨hx, -, -, hnew⟩
    · exact hkept hx
    · refine ⟨Option.eq_none_iff_forall_ne_some.mpr fun n hn => ?_, hnew⟩
      exact nomatch hx.symm.trans (he.index_of_old h hn)
  · exact hkept hz

theorem spine (hf : p.Fits t root claimed) (hr : r ∈ p.items) (hs : s ∈ r.children)
    (hsame : s.isSame = false) (hz : index'[s.key]? = some z) :
    ∃ w, index'[r.key]? = some w ∧ d'.Under z w := by
  rcases he.eq_or_ne h hf (Pairing.mem_items_of_mem_children hs hr) hz with
    ⟨rfl, rfl⟩ | ⟨-, hne, hz⟩
  · obtain rfl := hf.parent_unique hr he.item hs he.child
    exact ⟨y, he.grows he.parent, (he.puts.under _ _).mpr (by rw [if_pos rfl])⟩
  · obtain ⟨w, hw, hzw⟩ := h.spine r hr s hs hsame z hz
    exact ⟨w, he.grows hw, (he.puts.under _ _).mpr (by rwa [if_neg hne])⟩

theorem stands (hf : p.Fits t root claimed) (hr : r ∈ p.items) (hs : s ∈ r.children)
    (hz : index'[s.key]? = some z) (hw : d'.Under z w) :
    t.Under z w ∨ index'[r.key]? = some w := by
  have hzw := (he.puts.under z w).mp hw
  rcases he.eq_or_ne h hf (Pairing.mem_items_of_mem_children hs hr) hz with
    ⟨rfl, rfl⟩ | ⟨-, hne, hz⟩
  · rw [if_pos rfl] at hzw
    obtain rfl := hf.parent_unique hr he.item hs he.child
    exact .inr (hzw ▸ he.grows he.parent)
  · rw [if_neg hne] at hzw
    exact (h.stands r hr s hs z hz w hzw).imp_right he.grows

variable (ht : t.WellFormed)
include ht

/-- The node does not stand above the root. -/
theorem not_above (hf : p.Fits t root claimed) : ¬ t.Within root x := by
  intro hw
  obtain ⟨b, hb, hroot⟩ := hf.exists_root
  obtain ⟨n, hn⟩ := ht.exists_of_within hw
    (hroot ▸ (hf.shows p p.mem_items_self b hb).1.node?)
  exact h.not_above hf ht he.item he.child (he.index_of_old h hn) hw

/-- The stage stays as it is when a node is put below the node it is to stand below. -/
theorem stage (hf : p.Fits t root claimed) : Stage t root p index' d' where
  sound := he.puts.sound
  sharing := he.puts.sharing.trans h.sharing
  old hn := by
    obtain ⟨m, hm, hcontent⟩ := h.old hn
    obtain ⟨m', hm', hcontent'⟩ := he.puts.content hm
    exact ⟨m', hm', hcontent'.trans hcontent⟩
  partner r hr z hz := he.grows (h.partner r hr z hz)
  fresh _ hr hfresh _ hz := he.fresh h hf hr hfresh hz
  injective _ hr _ hs _ hz hz' := he.injective h hf hr hs hz hz'
  spine _ hr _ hs hsame _ hz := he.spine h hf hr hs hsame hz
  stands _ hr _ hs _ hz _ hw := he.stands h hf hr hs hz hw
  above z hz w := by
    have hne : z ≠ x := by
      rintro rfl
      exact he.not_above h ht hf hz
    rw [he.puts.under, if_neg hne, h.above z hz]
  document z hz := by
    rcases he.puts.document z with hd | hd
    · rw [hd]
      exact h.document z hz
    · rw [hd]
      exact h.document y (h.new_or_within hf he.item he.parent)

end

variable (h : Scene t root p index d)
include h

theorem strays (hf : p.Fits t root claimed) (hr : r ∈ p.items) (hsame : r.isSame = false)
    (hw : index'[r.key]? = some w) (hz : d'.Under z w) :
    ∃ s ∈ p.items, index'[s.key]? = some z := by
  have hzw := (he.puts.under z w).mp hz
  by_cases hzx : z = x
  · exact ⟨c, he.child_item, hzx ▸ he.index_self⟩
  · rw [if_neg hzx] at hzw
    have hold : index[r.key]? = some w := by
      rcases he.eq_or_ne h.toStage hf hr hw with ⟨rfl, rfl⟩ | ⟨-, -, hw⟩
      · rcases he.known_or_new with hx | ⟨-, -, hx, -⟩
        · exact hx
        · -- Nobody stands below a node that is not there yet.
          obtain ⟨m, hm⟩ := h.sound.exists_parent hzw
          exact nomatch hm.symm.trans hx
      · exact hw
    obtain ⟨s, hs, hsz⟩ := h.strays r hr hsame w hold z hzw
    exact ⟨s, hs, he.grows hsz⟩

variable (ht : t.WellFormed)
include ht

/-- A branch that exists already as a whole is neither put below nor taken from. -/
theorem inside (hf : p.Fits t root claimed) (hr : r ∈ p.items) (hb : r = .same u b)
    (hz : z ∈ b.ids) : d'.children z = t.children z := by
  subst hb
  obtain ⟨hshow, -⟩ := hf.shows _ hr b rfl
  have hzy : z ≠ y := by
    -- A node that others are put below has children in the pairing.
    rintro rfl
    obtain ⟨n, hn, rfl⟩ := List.mem_map.mp hz
    have hyown := Pairing.mem_own_of_partner?
      (h.partner_of_old he.item he.parent (hshow.node?_of_mem hn))
    obtain rfl := hf.own_injective _ hr q he.item _ hz hyown
    exact nomatch he.child
  rw [he.puts.children_ne z hzy, h.inside _ hr u b rfl z hz, List.erase_of_not_mem]
  intro hxz
  have hxz := ht.mem_children_iff.mp hxz
  obtain ⟨n, hn, -⟩ := hxz.exists_node
  have hzb := (hshow.mem_ids_iff ht).mp hz
  -- The node would be inside of the branch, and hence be its root.
  have hpartner := h.partner_of_old he.child_item (he.index_of_old h.toStage hn) hn
  obtain rfl := hf.own_injective _ hr c he.child_item x
    ((hshow.mem_ids_iff ht).mpr (.head hxz hzb)) (Pairing.mem_own_of_partner? hpartner)
  obtain rfl := Option.some.inj hpartner
  exact ht.acyclic _ (TransGen.head' hxz hzb)

/-- The scene stays as it is when a node is put below the node it is to stand below. -/
theorem scene (hf : p.Fits t root claimed) : Scene t root p index' d' where
  toStage := he.stage h.toStage ht hf
  inside _ hr _ _ hb _ hz := he.inside h ht hf hr hb hz
  strays _ hr hsame _ hw _ hz := he.strays h hf hr hsame hw hz

end Enters

end ContentTree.Merge
