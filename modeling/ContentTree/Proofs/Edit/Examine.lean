import ContentTree.Edit.Basic
import ContentTree.Proofs.Except
import ContentTree.Proofs.Tree.WellFormed

/-!
# What examinations find

Every operation examines the tree before it writes. This file says for each examination exactly when
it passes, so that later proofs work with facts about the tree and not with the order in which an
examination looks at them.

## Main definitions

* `Editor.Writes`: a principal may write some node.
* `Editor.Admits`: what must hold for a node to be put among the children of another.

## Main results

* `Editor.admits_eq_ok`: the examination of a new place passes exactly when the place is admitted.
-/

namespace ContentTree

namespace Tree

variable {t : Tree} {id parent child : NodeId} {n : Node}

theorem require_eq_ok : t.require id = .ok n ↔ t.node? id = some n := by
  unfold require
  cases t.node? id <;> simp

theorem requireContainer_eq_ok {u : Unit} : t.requireContainer parent = .ok u ↔
    ∃ n, t.node? parent = some n ∧ n.kind.acceptsChildren = true := by
  unfold requireContainer
  simp only [bind_eq_ok, require_eq_ok, ite_pure_eq_ok]

theorem requirePage_eq_ok {u : Unit} : t.requirePage id = .ok u ↔
    ∃ n, t.node? id = some n ∧ n.kind.isPage = true := by
  unfold requirePage
  simp only [bind_eq_ok, require_eq_ok, ite_pure_eq_ok]

theorem requirePlaceable_eq_ok {u : Unit} : t.requirePlaceable parent child = .ok u ↔
    parent ≠ child ∧ t.isAncestor child parent = false ∧
      ∃ n, t.node? child = some n ∧ n.kind.isPage = false := by
  unfold requirePlaceable
  simp only [ite_throw_bind_eq_ok, bind_eq_ok, require_eq_ok, ite_throw_eq_ok, Bool.not_eq_true,
    ne_eq]

theorem requireSameDocument_eq_ok {u : Unit} : t.requireSameDocument parent child = .ok u ↔
    ∀ a b, t.document? parent = some a → t.document? child = some b → a ≠ b →
      t.shadow = some a := by
  unfold requireSameDocument
  split
  · next a b ha hb =>
    constructor
    · intro h a' b' ha' hb' hne
      obtain rfl := Option.some.inj (ha.symm.trans ha')
      obtain rfl := Option.some.inj (hb.symm.trans hb')
      by_contra hs
      simp [hne, hs] at h
    · intro h
      refine if_neg fun hfar => ?_
      exact hfar.2 (h a b ha hb hfar.1)
  · next h =>
    simp only [true_iff]
    exact fun a b ha hb => (h a b ha hb).elim

theorem requireChild_eq_ok {u : Unit} : t.requireChild parent child = .ok u ↔
    t.Under child parent := by
  unfold requireChild
  simp only [bind_eq_ok, require_eq_ok, ite_pure_eq_ok]
  exact ⟨fun ⟨_, _, h⟩ => h, fun h => ⟨_, h.exists_node.choose_spec.1, h⟩⟩

end Tree

namespace Editor

variable {e : Editor} {t : Tree} {id parent child : NodeId} {reference : Option NodeId} {n : Node}

/-- A principal may write some node. -/
def Writes (e : Editor) : Prop := ∃ n, e.access.canWrite e.principal n = true

/-- The policy lets the children of a node change. -/
def Unlocked (e : Editor) (t : Tree) (parent : NodeId) : Prop :=
  e.syncedParents = .allow ∨ t.isSynced parent = false

theorem mayWrite_eq_ok {u : Unit} : e.mayWrite t id = .ok u ↔
    ∃ n, t.node? id = some n ∧ e.access.canWrite e.principal n = true := by
  unfold mayWrite
  simp only [bind_eq_ok, Tree.require_eq_ok, ite_pure_eq_ok]

theorem mayWrite_of_not_canWrite {n : Node} (hn : t.node? id = some n)
    (hw : e.access.canWrite e.principal n = false) :
    e.mayWrite t id = .error (.denied id (.noWriteAccess e.principal.text)) := by
  unfold mayWrite
  rw [Tree.require_eq_ok.mpr hn]
  exact if_neg (Bool.not_eq_true _ ▸ hw)

theorem writes_of_mayWrite {u : Unit} (h : e.mayWrite t id = .ok u) : e.Writes :=
  let ⟨n, _, hn⟩ := mayWrite_eq_ok.mp h
  ⟨n, hn⟩

theorem keepsSynced_eq_ok {u : Unit} : e.keepsSynced t parent = .ok u ↔ e.Unlocked t parent := by
  unfold keepsSynced Unlocked
  by_cases h : e.syncedParents = .allow <;> cases t.isSynced parent <;> simp [h]

theorem keepsSyncedParent_eq_ok {u : Unit} : e.keepsSyncedParent t child = .ok u ↔
    ∀ p, t.Under child p → e.Unlocked t p := by
  unfold keepsSyncedParent
  split
  · next p hp =>
    rw [keepsSynced_eq_ok]
    exact ⟨fun h q hq => Option.some.inj (hp.symm.trans hq) ▸ h, fun h => h p hp⟩
  · next hp =>
    simp only [true_iff]
    exact fun p h => absurd (hp.symm.trans h) (Option.some_ne_none p).symm

/-- What must hold for a node to be put among the children of `parent`, before `reference` or at
the end. -/
structure Admits (e : Editor) (t : Tree) (parent child : NodeId) (reference : Option NodeId) :
    Prop where
  exists_parent : ∃ n, t.node? parent = some n ∧ n.kind.acceptsChildren = true
  exists_child : ∃ n, t.node? child = some n ∧ n.kind.isPage = false
  writable : e.mayWrite t parent = .ok ()
  ne : parent ≠ child
  not_ancestor : t.isAncestor child parent = false
  same_document : ∀ a b, t.document? parent = some a → t.document? child = some b → a ≠ b →
    t.shadow = some a
  reference_under : ∀ r, reference = some r → t.Under r parent
  unlocked : e.Unlocked t parent
  unlocked_old : ∀ p, t.Under child p → p ≠ parent → e.Unlocked t p

/-- The examination of a new place passes exactly when the place is admitted. -/
theorem admits_eq_ok {u : Unit} : e.admits t parent child reference = .ok u ↔
    e.Admits t parent child reference := by
  have hold : (if t.parent? child ≠ some parent then e.keepsSyncedParent t child else pure ()) =
      .ok u ↔ ∀ p, t.Under child p → p ≠ parent → e.Unlocked t p := by
    split
    · next hne =>
      rw [keepsSyncedParent_eq_ok]
      exact forall₂_congr fun p hp => ⟨fun h _ => h, fun h => h fun heq => hne (heq ▸ hp)⟩
    · next heq =>
      simp only [pure, Except.pure, true_iff]
      exact fun p hp hne => (hne (Option.some.inj (hp.symm.trans (not_not.mp heq)))).elim
  have hiff : e.admits t parent child reference = .ok u ↔
      e.mayWrite t parent = .ok () ∧
      (∃ n, t.node? parent = some n ∧ n.kind.acceptsChildren = true) ∧
      (parent ≠ child ∧ t.isAncestor child parent = false ∧
        ∃ n, t.node? child = some n ∧ n.kind.isPage = false) ∧
      (∀ a b, t.document? parent = some a → t.document? child = some b → a ≠ b →
        t.shadow = some a) ∧
      (∀ r, reference = some r → t.Under r parent) ∧ e.Unlocked t parent ∧
      ∀ p, t.Under child p → p ≠ parent → e.Unlocked t p := by
    unfold admits
    cases reference <;>
      simp only [bind_unit_eq_ok, Tree.requireContainer_eq_ok, Tree.requirePlaceable_eq_ok,
        Tree.requireSameDocument_eq_ok, Tree.requireChild_eq_ok, keepsSynced_eq_ok, hold,
        reduceCtorEq, Option.some.injEq, forall_eq', false_imp_iff, implies_true, true_and]
  rw [hiff]
  constructor
  · rintro ⟨hw, hp, ⟨hne, hanc, hc⟩, hdoc, hr, hu, ho⟩
    exact ⟨hp, hc, hw, hne, hanc, hdoc, hr, hu, ho⟩
  · rintro ⟨hp, hc, hw, hne, hanc, hdoc, hr, hu, ho⟩
    exact ⟨hw, hp, ⟨hne, hanc, hc⟩, hdoc, hr, hu, ho⟩

/-- The same editor under a policy that lets the children of synced nodes change. -/
def permissive (e : Editor) : Editor := { e with syncedParents := .allow }

theorem Admits.of_permissive (h : e.permissive.Admits t parent child reference)
    (hunlocked : e.Unlocked t parent)
    (hold : ∀ p, t.Under child p → p ≠ parent → e.Unlocked t p) :
    e.Admits t parent child reference :=
  ⟨h.exists_parent, h.exists_child, h.writable, h.ne, h.not_ancestor, h.same_document,
    h.reference_under, hunlocked, hold⟩

/-- Where nothing but a synced old parent is in the way, it is the old parent that is named. -/
theorem admits_eq_denied {z : NodeId} (h : e.permissive.Admits t parent child reference)
    (hunlocked : e.Unlocked t parent) (hz : t.Under child z) (hne : z ≠ parent)
    (hlocked : ¬ e.Unlocked t z) :
    e.admits t parent child reference = .error (.denied z .synced) := by
  have hparent : t.parent? child = some z := hz
  have hwrite : e.mayWrite t parent = .ok () := h.writable
  have hcontainer : t.requireContainer parent = .ok () :=
    Tree.requireContainer_eq_ok.mpr h.exists_parent
  have hplaceable : t.requirePlaceable parent child = .ok () :=
    Tree.requirePlaceable_eq_ok.mpr ⟨h.ne, h.not_ancestor, h.exists_child⟩
  have hdocument : t.requireSameDocument parent child = .ok () :=
    Tree.requireSameDocument_eq_ok.mpr h.same_document
  have hsynced : e.keepsSynced t parent = .ok () := keepsSynced_eq_ok.mpr hunlocked
  have hdenied : e.keepsSynced t z = .error (.denied z .synced) :=
    if_neg (by simpa [Unlocked] using hlocked)
  have hold : e.keepsSyncedParent t child = .error (.denied z .synced) := by
    rw [keepsSyncedParent, hparent]
    exact hdenied
  have hmoved : t.parent? child ≠ some parent := hparent ▸ fun heq => hne (Option.some.inj heq)
  unfold admits
  cases reference with
  | none =>
    simp only [hwrite, hcontainer, hplaceable, hdocument, hsynced, if_pos hmoved, hold, bind,
      Except.bind]
  | some r =>
    have hchild : t.requireChild parent r = .ok () :=
      Tree.requireChild_eq_ok.mpr (h.reference_under r rfl)
    simp only [hwrite, hcontainer, hplaceable, hdocument, hchild, hsynced, if_pos hmoved, hold,
      bind, Except.bind]

end Editor

end ContentTree
