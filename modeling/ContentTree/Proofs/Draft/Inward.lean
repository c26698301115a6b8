import ContentTree.Proofs.Draft.Untouched
import ContentTree.Proofs.Draft.Versions

/-!
# Changes below a node

Writes that concern nodes below a root, or new nodes, change nothing outside the branch of the root,
and leave the root where it stands. What is below the root changes all the time, but the set of all
nodes that were below it at the beginning or are new is closed: as long as nodes are only put below
the root or below a node of the set, a child is in the set exactly if its parent is the root or in
the set. Nodes that are taken out of every document stay in the set.

## Main definitions

* `Node.Retains`: what a node keeps wherever it goes, among it whom it belongs to.
* `Tree.Bounds`: a set of nodes is closed in a tree.
* `Draft.Inward`: a draft differs from another inside a set of nodes only.
* `Tree.ChangedBelow`: a tree differs from another below a root only.

## Main results

* `Draft.inward_place`, `Draft.inward_discard` and others: single writes.
* `Draft.Inward.changedBelow`: changes inside the set of the nodes below a root and the new ones.
-/

namespace ContentTree

open Relation

/-- What a node keeps wherever it goes: its identifier and its kind, whom it belongs to and who has
been granted what, and the component it mirrors. -/
structure Node.Retains (n m : Node) : Prop where
  id : m.id = n.id
  kind : n.kind.same m.kind = true
  owner : m.properties.owner = n.properties.owner
  grants : m.properties.grants = n.properties.grants
  component : m.component = n.component

/-- What becomes of a node when changes are made inside a set. Outside the set only the root
changes, and it stays in its place and in its document. -/
structure Node.Stays (inside : NodeId → Prop) (root : NodeId) (n m : Node) : Prop
    extends n.Retains m where
  place : ¬ inside n.id → m.parent = n.parent ∧ m.position = n.position ∧ m.document = n.document
  eq_of_ne : ¬ inside n.id → n.id ≠ root → m = n

namespace Node

variable {inside : NodeId → Prop} {root : NodeId} {n m k : Node}

theorem Retains.refl (n : Node) : n.Retains n := ⟨rfl, n.kind.same_refl, rfl, rfl, rfl⟩

theorem Retains.trans (h : n.Retains m) (h' : m.Retains k) : n.Retains k where
  id := h'.id.trans h.id
  kind := Kind.same_trans h.kind h'.kind
  owner := h'.owner.trans h.owner
  grants := h'.grants.trans h.grants
  component := h'.component.trans h.component

theorem retains_withVersion (n : Node) (version : Nat) : n.Retains (n.withVersion version) :=
  ⟨rfl, Kind.same_withVersion n.kind.same_refl version, rfl, rfl, rfl⟩

theorem owningPage_withVersion (n : Node) (version : Nat) :
    (n.withVersion version).owningPage = n.owningPage := by
  simp only [owningPage, withVersion, Draft.isPage_withVersion]

theorem Stays.refl (n : Node) : n.Stays inside root n :=
  ⟨.refl n, fun _ => ⟨rfl, rfl, rfl⟩, fun _ _ => rfl⟩

theorem Stays.trans (h : n.Stays inside root m) (h' : m.Stays inside root k) :
    n.Stays inside root k where
  toRetains := h.toRetains.trans h'.toRetains
  place hn := by
    obtain ⟨hparent, hposition, hdocument⟩ := h.place hn
    obtain ⟨hparent', hposition', hdocument'⟩ := h'.place (h.id ▸ hn)
    exact ⟨hparent'.trans hparent, hposition'.trans hposition, hdocument'.trans hdocument⟩
  eq_of_ne hn hne := (h'.eq_of_ne (h.id ▸ hn) (h.id ▸ hne)).trans (h.eq_of_ne hn hne)

/-- Inside the set everything else may change. -/
theorem Retains.stays (h : n.Retains m) (hn : inside n.id) : n.Stays inside root m :=
  ⟨h, fun hout => absurd hn hout, fun hout => absurd hn hout⟩

end Node

namespace Tree

variable {inside : NodeId → Prop} {root : NodeId} {t t' : Tree} {c p x : NodeId} {n : Node}
  {g : Node → Node}

/-- A set of nodes is closed in a tree: a child is in the set exactly if its parent is the root or
in the set. Identifiers that are still free are in the set, and the root is not. -/
structure Bounds (inside : NodeId → Prop) (root : NodeId) (t : Tree) : Prop where
  sound : t.Sound
  root_outside : ¬ inside root
  inside_iff : ∀ {c p}, t.Under c p → (inside c ↔ inside p ∨ p = root)
  inside_of_none : ∀ {x}, t.node? x = none → inside x

/-- The nodes below a root of a tree, and those that are not in the tree. -/
def BelowOrNew (t : Tree) (root x : NodeId) : Prop :=
  t.Below x root ∨ t.node? x = none

theorem Sound.bounds (h : t.Sound) (hroot : t.node? root = some n) :
    t.Bounds (t.BelowOrNew root) root where
  sound := h
  root_outside := by
    rintro (hbelow | hnone)
    · exact h.acyclic root hbelow
    · exact Option.some_ne_none _ (hroot.symm.trans hnone)
  inside_iff {c p} hc := by
    obtain ⟨n, hn, -⟩ := hc.exists_node
    obtain ⟨m, hm⟩ := h.exists_parent hc
    constructor
    · rintro (hbelow | hnone)
      · rcases (hbelow.of_under hc).eq_or_below with rfl | hp
        · exact .inr rfl
        · exact .inl (.inl hp)
      · exact absurd (hn.symm.trans hnone) (Option.some_ne_none _)
    · rintro ((hbelow | hnone) | rfl)
      · exact .inl (.head hc hbelow)
      · exact absurd (hm.symm.trans hnone) (Option.some_ne_none _)
      · exact .inl (.single hc)
  inside_of_none := .inr

namespace Bounds

variable (h : t.Bounds inside root)
include h

/-- With a node, everything below it is in the set. -/
theorem inside_of_within (hw : t.Within x c) (hc : inside c) : inside x := by
  induction hw using ReflTransGen.head_induction_on with
  | refl => exact hc
  | head hstep _ ih => exact (h.inside_iff hstep).mpr (.inl ih)

/-- A node outside the set is none of the set, and no sibling of one. -/
theorem apart (hn : t.node? n.id = some n) (hout : ¬ inside n.id) (hc : inside c)
    (hp : inside p ∨ p = root) :
    n.id ≠ c ∧ n.parent ≠ some p ∧ (n.id ≠ root → n.id ≠ p) := by
  refine ⟨fun he => hout (he ▸ hc), fun he => ?_, fun hne he => ?_⟩
  · exact hout ((h.inside_iff (under_of_node? hn he)).mpr hp)
  · subst he
    exact hp.elim hout hne

/-- The set stays closed when nodes of the set go to parents in the set, or to the root. -/
theorem of_rewritten (hg : Rewritten g t t') (hsound : t'.Sound)
    (hunder : ∀ {c p}, t'.Under c p → t.Under c p ∨ inside c ∧ (inside p ∨ p = root)) :
    t'.Bounds inside root where
  sound := hsound
  root_outside := h.root_outside
  inside_iff hc := by
    rcases hunder hc with hc | ⟨hinside, hp⟩
    · exact h.inside_iff hc
    · exact iff_of_true hinside hp
  inside_of_none {x} hx := by
    rw [hg.node?, Option.map_eq_none_iff] at hx
    exact h.inside_of_none hx

end Bounds

end Tree

namespace Draft

open ContentTree.Tree (Bounds Rewritten)

variable {inside : NodeId → Prop} {root : NodeId} {owner : Option String} {d d' : Draft}
  {c p id : NodeId} {n : Node} {g : Node → Node}

/-- A draft differs from another inside a set of nodes only, and in the root apart from its place.
New nodes belong to the given owner. -/
structure Inward (inside : NodeId → Prop) (root : NodeId) (owner : Option String)
    (d d' : Draft) : Prop where
  bounds : d.tree.Bounds inside root → d'.tree.Bounds inside root
  node : ∀ {id n}, d.tree.node? id = some n →
    ∃ m, d'.tree.node? id = some m ∧ n.Stays inside root m
  new : ∀ {id m}, d'.tree.node? id = some m → d.tree.node? id = none → m.properties.owner = owner
  sharing : d'.tree.sharing = d.tree.sharing

instance : IsPreorder Draft (Inward inside root owner) where
  refl _ := ⟨fun h => h, fun {_ n} hn => ⟨n, hn, .refl n⟩,
    fun hm hn => absurd (hm.symm.trans hn) (Option.some_ne_none _), rfl⟩
  trans d d' d'' h h' := by
    refine ⟨h'.bounds ∘ h.bounds, fun hn => ?_, fun {id k} hk hn => ?_, h'.sharing.trans h.sharing⟩
    · obtain ⟨m, hm, hstays⟩ := h.node hn
      obtain ⟨k, hk, hstays'⟩ := h'.node hm
      exact ⟨k, hk, hstays.trans hstays'⟩
    · cases hm : d'.tree.node? id with
      | none => exact h'.new hk hm
      | some m =>
        -- The node was new in between, and has kept its owner since then.
        obtain ⟨k', hk', hstays⟩ := h'.node hm
        obtain rfl := Option.some.inj (hk.symm.trans hk')
        exact hstays.owner.trans (h.new hm hn)

theorem Inward.of_rewritten (hb : d.tree.Bounds inside root) (hg : Rewritten g d.tree d'.tree)
    (hsound : d'.tree.Sound)
    (hunder : ∀ {c p}, d'.tree.Under c p → d.tree.Under c p ∨ inside c ∧ (inside p ∨ p = root))
    (hstays : ∀ {id n}, d.tree.node? id = some n → n.Stays inside root (g n)) :
    Inward inside root owner d d' where
  bounds _ := hb.of_rewritten hg hsound hunder
  node {_ n} hn := ⟨g n, hg.node?_of_some hn, hstays hn⟩
  new hm hn := by
    obtain ⟨n, hn', -⟩ := hg.exists_of_some hm
    exact absurd (hn'.symm.trans hn) (Option.some_ne_none _)
  sharing := hg.sharing

/-! ### Single writes -/

section Writes

variable (hb : d.tree.Bounds inside root)
include hb

theorem inward_detach (hc : inside c) : Inward inside root owner d (d.detach c) := by
  have hwf := hb.sound.toWellFormed
  cases hparent : d.tree.parent? c with
  | none =>
    rw [detach_of_root hparent]
    exact refl_of (Inward inside root owner) d
  | some p =>
    obtain ⟨k, hk, hp⟩ := Tree.Under.exists_node hparent
    have hpin : inside p ∨ p = root := (hb.inside_iff hparent).mp hc
    refine .of_rewritten hb (rewritten_detach hwf hk hp) (hb.sound.detach c)
      (fun hu => .inl ((under_detach hwf).mp hu).2) fun {x n} hn => ?_
    obtain rfl := hwf.keyed hn
    refine ⟨⟨rfl, n.kind.same_refl, rfl, rfl, rfl⟩, fun hout => ?_, fun hout hne => ?_⟩
    · obtain ⟨hnc, hnp, -⟩ := hb.apart hn hout hc hpin
      simp [detached, hnc, hnp]
    · obtain ⟨hnc, hnp, hnid⟩ := hb.apart hn hout hc hpin
      simp [detached, hnc, hnp, hnid hne]

theorem inward_setDocument (hc : inside c) (document : Option NodeId) :
    Inward inside root owner d (d.setDocument c document) := by
  have hwf := hb.sound.toWellFormed
  refine .of_rewritten hb (rewritten_setDocument hwf.keyed c document)
    (hb.sound.setDocument c document) (fun hu => .inl ((under_setDocument hwf c document).mp hu))
    fun {x n} hn => ?_
  obtain rfl := hwf.keyed hn
  by_cases hin : inside n.id
  · refine Node.Retains.stays ?_ hin
    unfold documented
    split <;> exact ⟨rfl, n.kind.same_refl, rfl, rfl, rfl⟩
  · have hnot : n.id ∉ d.tree.branchIds c := fun hmem =>
      hin (hb.inside_of_within ((hwf.mem_branchIds_iff hn).mp hmem) hc)
    rw [documented, if_neg fun h => hnot h.1]
    exact .refl n

theorem inward_settle (hm : Movable d.tree p c) (hc : inside c) (hp : inside p ∨ p = root)
    (reference : Option NodeId) : Inward inside root owner d (d.settle p c reference) := by
  have hwf := hb.sound.toWellFormed
  have hfirst : Inward inside root owner d (d.detach c) := inward_detach hb hc
  have hb' := hfirst.bounds hb
  obtain ⟨i, hg⟩ := hm.rewritten_settle hwf reference
  refine trans_of (Inward inside root owner) hfirst
    (.of_rewritten hb' hg (hm.sound_settle hb.sound reference) (fun {x y} hu => ?_)
      fun {x n} hn => ?_)
  · rw [hm.under_settle hwf] at hu
    split at hu
    · next hx => exact .inr ⟨hx ▸ hc, hu ▸ hp⟩
    · next hx => exact .inl ((under_detach hwf).mpr ⟨hx, hu⟩)
  · obtain rfl := hb'.sound.keyed hn
    refine ⟨⟨rfl, n.kind.same_refl, rfl, rfl, rfl⟩, fun hout => ?_, fun hout hne => ?_⟩
    · obtain ⟨hnc, hnp, -⟩ := hb'.apart hn hout hc hp
      simp [attached, hnc, hnp]
    · obtain ⟨hnc, hnp, hnid⟩ := hb'.apart hn hout hc hp
      simp [attached, hnc, hnp, hnid hne]

theorem inward_place (hm : Movable d.tree p c) (hc : inside c) (hp : inside p ∨ p = root)
    (reference : Option NodeId) : Inward inside root owner d (d.place p c reference) := by
  have hsettle : Inward inside root owner d (d.settle p c reference) :=
    inward_settle hb hm hc hp reference
  rw [place_eq]
  split
  · exact hsettle
  · exact trans_of (Inward inside root owner) hsettle
      (inward_setDocument (hsettle.bounds hb) hc _)

theorem inward_discard (hc : inside c) : Inward inside root owner d (d.discard c) := by
  have hfirst : Inward inside root owner d (d.detach c) := inward_detach hb hc
  exact trans_of (Inward inside root owner) hfirst
    (inward_setDocument (hfirst.bounds hb) hc none)

theorem inward_setContent {content : Content} (hn : d.tree.node? id = some n)
    (hid : inside id ∨ id = root) (hkind : n.kind.same content.kind = true)
    (howner : content.properties.owner = n.properties.owner)
    (hgrants : content.properties.grants = n.properties.grants) :
    Inward inside root owner d (d.setContent id content) := by
  have hg := rewritten_setContent hb.sound.keyed id content
  have hsound : (d.setContent id content).tree.Sound := hb.sound.setContent fun m hm => by
    rw [← Option.some.inj (hn.symm.trans hm), Kind.isPage_eq_of_same hkind]
  refine .of_rewritten hb hg hsound (fun {c p} hu => .inl ?_) fun {x m} hm => ?_
  · exact (parent?_of_at hg.node? (fun _ => rfl) c).symm.trans hu
  · obtain rfl := hb.sound.keyed hm
    by_cases hmid : m.id = id
    · subst hmid
      obtain rfl := Option.some.inj (hn.symm.trans hm)
      simp only [at_, if_true]
      refine ⟨⟨rfl, same_recast hkind, howner, hgrants, rfl⟩, fun _ => ⟨rfl, rfl, rfl⟩,
        fun hout hne => absurd (hid.resolve_left hout) hne⟩
    · simp only [at_, hmid, if_false]
      exact .refl m

theorem inward_add {content : Content} (howner : content.properties.owner = owner) :
    Inward inside root owner d (d.add content).2 := by
  have hid := node?_nextId hb.sound
  have hgrown := grown_addAt hb.sound hid content
  have hnode := node?_addAt d d.nextId content
  refine ⟨fun _ => ⟨hgrown.sound, hb.root_outside, fun {c p} hu => ?_, fun {x} hx => ?_⟩,
    fun {_ n} hn => ⟨n, hgrown.old hn, .refl n⟩, fun {x m} hm hx => ?_, hgrown.sharing⟩
  · -- The new node has no parent.
    obtain ⟨n, hn, hp⟩ := hu.exists_node
    cases hold : d.tree.node? c with
    | some k => exact hb.inside_iff (hgrown.old.under_of hold hu)
    | none =>
      rw [add, hnode] at hn
      split at hn
      · rw [← Option.some.inj hn] at hp
        exact nomatch hp
      · exact absurd (hn.symm.trans hold) (Option.some_ne_none _)
  · exact hb.inside_of_none (hgrown.none_of_none hx)
  · rw [add, hnode] at hm
    split at hm
    · rw [← Option.some.inj hm]
      exact howner
    · exact absurd (hm.symm.trans hx) (Option.some_ne_none _)

end Writes

end Draft

/-! ### Trees that have changed below a node -/

namespace Tree

variable {root id : NodeId} {owner : Option String} {t t' : Tree} {d : Draft} {n : Node}

/-- A tree has changed below a root only. New nodes belong to the given owner. -/
structure ChangedBelow (root : NodeId) (owner : Option String) (t t' : Tree) : Prop where
  /-- Outside the branch of the root, nothing but versions of pages has changed. -/
  outside : ∀ {id n}, t.node? id = some n → ¬ t.Within id root →
    ∃ version, t'.node? id = some (n.withVersion version)
  /-- The root stands where it stood, and belongs to the same document. -/
  root : ∀ {n}, t.node? root = some n → ∃ m, t'.node? root = some m ∧
    m.parent = n.parent ∧ m.position = n.position ∧ m.owningPage = n.owningPage
  /-- Every node is there still, of the same kind, and belongs to whom it belonged. -/
  old : ∀ {id n}, t.node? id = some n → ∃ m, t'.node? id = some m ∧ n.Retains m
  new : ∀ {id n}, t'.node? id = some n → t.node? id = none → n.properties.owner = owner
  sharing : t'.sharing = t.sharing

theorem ChangedBelow.refl (root : NodeId) (owner : Option String) (t : Tree) :
    t.ChangedBelow root owner t where
  outside {_ n} hn _ := n.exists_withVersion_self.imp fun _ hv => by rw [hv, hn]
  root {n} hn := ⟨n, hn, rfl, rfl, rfl⟩
  old {_ n} hn := ⟨n, hn, .refl n⟩
  new hn hid := absurd (hn.symm.trans hid) (Option.some_ne_none _)
  sharing := rfl

end Tree

namespace Draft

variable {root : NodeId} {owner : Option String} {t : Tree} {d : Draft} {n : Node}

theorem exists_advance_eq (pages : List NodeId) (n : Node) :
    ∃ version, advance pages n = n.withVersion version := by
  unfold advance
  split
  · exact n.exists_bumped_eq
  · exact n.exists_withVersion_self.imp fun _ h => h.symm

/-- What has changed inside the set of the nodes below a root and the new ones has changed below the
root. Versions go up in the end. -/
theorem Inward.changedBelow (h : Inward (t.BelowOrNew root) root owner (start t) d)
    (hb : t.Bounds (t.BelowOrNew root) root) : t.ChangedBelow root owner d.bumpPages.tree := by
  have hg := rewritten_bumpPages (h.bounds hb).sound.keyed
  have hnode : ∀ {id n}, t.node? id = some n → ∃ m version,
      d.bumpPages.tree.node? id = some (m.withVersion version) ∧
        n.Stays (t.BelowOrNew root) root m := by
    intro id n hn
    obtain ⟨m, hm, hstays⟩ := h.node (d := start t) hn
    obtain ⟨version, hv⟩ := exists_advance_eq d.touchedPages.toList m
    exact ⟨m, version, by rw [hg.node?_of_some hm, hv], hstays⟩
  refine ⟨fun {id n} hn hw => ?_, fun {n} hn => ?_, fun {id n} hn => ?_, fun {id n} hn hid => ?_,
    hg.sharing.trans h.sharing⟩
  · obtain ⟨m, version, hm, hstays⟩ := hnode hn
    obtain rfl := hb.sound.keyed hn
    have hout : ¬ t.BelowOrNew root n.id := by
      rintro (hbelow | hnone)
      · exact hw hbelow.within
      · exact Option.some_ne_none _ (hn.symm.trans hnone)
    have hne : n.id ≠ root := fun he => hw (he ▸ .refl)
    exact ⟨version, by rw [hm, hstays.eq_of_ne hout hne]⟩
  · obtain ⟨m, version, hm, hstays⟩ := hnode hn
    have hid := hb.sound.keyed hn
    obtain ⟨hparent, hposition, hdocument⟩ := hstays.place (hid ▸ hb.root_outside)
    refine ⟨_, hm, hparent, hposition, ?_⟩
    rw [Node.owningPage_withVersion, Node.owningPage, Node.owningPage, hstays.id, hdocument,
      Kind.isPage_eq_of_same hstays.kind]
  · obtain ⟨m, version, hm, hstays⟩ := hnode hn
    exact ⟨_, hm, hstays.toRetains.trans (m.retains_withVersion version)⟩
  · obtain ⟨m, hm, rfl⟩ := hg.exists_of_some hn
    obtain ⟨version, hv⟩ := exists_advance_eq d.touchedPages.toList m
    rw [hv]
    exact (m.retains_withVersion version).owner.trans (h.new hm hid)

end Draft

end ContentTree
