import ContentTree.Edit.Component
import ContentTree.Proofs.Draft.Growth
import ContentTree.Proofs.Edit.Examine
import ContentTree.Proofs.Tree.Content

/-!
# Changes

Operations write to a draft only after an examination, and they all write in one of a few ways. A
change is one such write together with what the examination has found. Whatever every change keeps
is kept by all operations, in whatever way they are composed.

## Main definitions

* `Draft.Change`: one write of an operation, with what was found before it.
* `Draft.Changes`: any number of them.
* `Tree.Keeps`, `Tree.KeepsKinds`: nodes stay, and something about their contents with them.

## Main results

* `Change.sound`: changes keep a tree sound.
* `Change.keeps`: nodes stay, and so does whatever a new content of the same kind keeps.
-/

namespace ContentTree

open Relation

namespace Draft

variable {d d' : Draft} {e : Editor} {id : NodeId} {n : Node}

/-- One write of an operation, with what was found before it. -/
inductive Change (e : Editor) (d : Draft) : Draft → Prop
  /-- A node is put into place. -/
  | place {parent child : NodeId} {reference : Option NodeId}
      (admitted : e.Admits d.tree parent child reference) :
      Change e d (d.place parent child reference)
  /-- A node leaves its parent. -/
  | detach (child : NodeId) (writes : e.Writes) : Change e d (d.detach child)
  /-- A node other than a page goes to the trash. -/
  | discard {id : NodeId} {n : Node} (exists_node : d.tree.node? id = some n)
      (not_page : n.kind.isPage = false) (writes : e.Writes) : Change e d (d.discard id)
  /-- A node gets another content of its kind. -/
  | recast {id : NodeId} {n : Node} {content : Content} (exists_node : d.tree.node? id = some n)
      (same_kind : n.kind.same content.kind = true) (writes : e.Writes) :
      Change e d (d.setContent id content)
  /-- A node is copied, alone or with everything below it. -/
  | clone {id : NodeId} {n : Node} {b : Branch} (exists_node : d.tree.node? id = some n)
      (branch : b = (d.tree.branch? id).getD ⟨n, []⟩ ∨ b = ⟨n, []⟩) :
      Change e d (d.cloneBranch e.principal.name? b).2
  /-- A page is added. -/
  | createPage {content : Content} (page : content.kind.isPage = true) :
      Change e d (d.add content).2
  /-- A node other than a page is added. -/
  | create {content : Content} {document : Option NodeId} (not_page : content.kind.isPage = false)
      (exists_page : ∀ page, document = some page →
        (∃ n, d.tree.node? page = some n ∧ n.kind.isPage = true) ∧ e.Writes) :
      Change e d ((d.add content).2.setDocument (d.add content).1 document)
  /-- A node other than a page leaves its place and moves into a document. -/
  | adopt {page id : NodeId} {n : Node}
      (exists_page : ∃ n, d.tree.node? page = some n ∧ n.kind.isPage = true)
      (exists_node : d.tree.node? id = some n) (not_page : n.kind.isPage = false)
      (writes : e.Writes) : Change e d ((d.detach id).setDocument id (some page))
  /-- A node mirrors a component of its kind. -/
  | link {mirror component : NodeId} {m c : Node} (exists_mirror : d.tree.node? mirror = some m)
      (exists_component : d.tree.node? component = some c) (ne : mirror ≠ component)
      (same_kind : m.kind.same c.kind = true)
      (not_mirror : d.tree.sharing.componentOf component = none)
      (not_mirrored : d.tree.sharing.hasMirrors mirror = false) (writes : e.Writes) :
      Change e d (d.link mirror component)
  /-- A node ceases to mirror a component. -/
  | unlink (mirror : NodeId) (writes : e.Writes) : Change e d (d.unlink mirror)
  /-- A shared component is made of a node other than a page. -/
  | share {id : NodeId} {n : Node} (exists_node : d.tree.node? id = some n)
      (not_page : n.kind.isPage = false) (not_synced : d.tree.isSynced id = false)
      (writes : e.Writes) :
      Change e d (Edit.shareBranch e.principal.name? ((d.tree.branch? id).getD ⟨n, []⟩) d).2

/-- Any number of changes. -/
def Changes (e : Editor) : Draft → Draft → Prop := ReflTransGen (Change e)

end Draft

/-! ### What stays with the nodes -/

namespace Content

variable {Q : Content → Content → Prop}

/-- A relation between earlier and later contents of a node. It holds while the content is the same,
from one step to the next, and where a node gets another content of its kind. -/
class Steady (Q : Content → Content → Prop) : Prop where
  refl : ∀ c, Q c c
  trans : ∀ {c c' c''}, Q c c' → Q c' c'' → Q c c''
  recast : ∀ {n : Node} {content}, n.kind.same content.kind = true →
    Q n.toContent (Draft.recast content n).toContent

/-- Two contents are of the same kind. -/
abbrev SameKind (c c' : Content) : Prop := c.kind.same c'.kind = true

end Content

theorem Draft.same_recast {n : Node} {content : Content} (h : n.kind.same content.kind = true) :
    n.kind.same (recast content n).kind = true := by
  unfold recast
  split
  · exact Kind.same_withVersion h _
  · exact h

instance : Content.Steady Content.SameKind where
  refl c := c.kind.same_refl
  trans := Kind.same_trans
  recast := Draft.same_recast

namespace Tree

variable {t t' t'' : Tree} {g : Node → Node} {Q : Content → Content → Prop}

/-- All nodes of a tree are in another, and their contents are related to those they had. -/
def Keeps (Q : Content → Content → Prop) (t t' : Tree) : Prop :=
  ∀ ⦃id n⦄, t.node? id = some n → ∃ m, t'.node? id = some m ∧ Q n.toContent m.toContent

/-- All nodes of a tree are in another, and of the same kinds. -/
abbrev KeepsKinds (t t' : Tree) : Prop := Keeps Content.SameKind t t'

namespace Keeps

theorem of_map (hg : ∀ id, t'.node? id = (t.node? id).map g)
    (h : ∀ id n, t.node? id = some n → Q n.toContent (g n).toContent) : Keeps Q t t' :=
  fun id n hn => ⟨g n, by rw [hg, hn, Option.map_some], h id n hn⟩

variable [hQ : Content.Steady Q]

theorem refl (t : Tree) : Keeps Q t t := fun _ n hn => ⟨n, hn, hQ.refl _⟩

theorem trans (h : Keeps Q t t') (h' : Keeps Q t' t'') : Keeps Q t t'' := by
  intro id n hn
  obtain ⟨m, hm, hk⟩ := h hn
  obtain ⟨m', hm', hk'⟩ := h' hm
  exact ⟨m', hm', hQ.trans hk hk'⟩

theorem of_extends (h : Extends t t') : Keeps Q t t' := fun _ n hn => ⟨n, h hn, hQ.refl _⟩

theorem of_relocated (h : Draft.Relocated t t') : Keeps Q t t' := by
  intro id n hn
  obtain ⟨m, hm, hcontent, -⟩ := h.exists_node hn
  exact ⟨m, hm, by rw [hcontent]; exact hQ.refl _⟩

theorem at_ {id : NodeId} {f : Node → Node}
    (hg : ∀ x, t'.node? x = (t.node? x).map (Draft.at_ id f))
    (h : ∀ n, t.node? id = some n → Q n.toContent (f n).toContent) (hk : t.Keyed) :
    Keeps Q t t' := by
  refine of_map hg fun x n hn => ?_
  unfold Draft.at_
  split
  · next hid => exact h n (hid ▸ (hk hn).symm ▸ hn)
  · exact hQ.refl _

theorem link {d : Draft} (h : d.tree.Keyed) (mirror component : NodeId) :
    Keeps Q d.tree (d.link mirror component).tree :=
  .at_ (Draft.node?_link h mirror component) (fun _ _ => hQ.refl _) h

omit hQ in
theorem bumpVersion {d : Draft} (h : d.tree.Keyed) (page : NodeId) :
    KeepsKinds d.tree (d.bumpVersion page).tree := by
  refine .at_ (Draft.rewritten_bumpVersion h page).node? (fun n _ => ?_) h
  unfold Draft.bumped
  split
  · exact Kind.same_withVersion n.kind.same_refl _
  · exact n.kind.same_refl

end Keeps

end Tree

namespace Draft

open ContentTree.Tree (Extends Keeps KeepsKinds)

variable {Q : Content → Content → Prop} {t : Tree} {d d' : Draft} {e : Editor} {id : NodeId}
  {n : Node} {b : Branch}

/-! ### Copies in the tree -/

theorem innerPlain_leaf (n : Node) : Branch.InnerPlain ⟨n, []⟩ := by
  intro m hm
  simp [Branch.inner, Branch.children, Branch.allNodes, Branch.nodes.listNodes] at hm

/-- The branch of a node that is copied, as the tree shows it. -/
theorem getD_branch (h : d.tree.WellFormed) (hn : d.tree.node? id = some n) :
    ((d.tree.branch? id).getD ⟨n, []⟩).node = n ∧
      ((d.tree.branch? id).getD ⟨n, []⟩).InnerPlain := by
  obtain ⟨b, hb, hnode, hshow⟩ := h.exists_branch hn
  rw [hb, Option.getD_some]
  exact ⟨hnode, h.innerPlain hshow⟩

theorem cloned (owner : Option String) (h : d.tree.Sound) (hb : b.InnerPlain) :
    (d.cloneBranch owner b).2.tree.Sound ∧ Extends d.tree (d.cloneBranch owner b).2.tree ∧
      NewRoot d.tree (d.cloneBranch owner b).2 (d.cloneBranch owner b).1 b.node.kind := by
  obtain ⟨hgrown, hnew⟩ := grown_copy owner b d h hb
  exact ⟨hgrown.sound.setDocument _ _, hgrown.setDocument h.toWellFormed hnew _⟩

theorem ensured (h : d.tree.Sound) :
    d.ensureShadow.2.tree.Sound ∧ Extends d.tree d.ensureShadow.2.tree ∧
      ∃ n, d.ensureShadow.2.tree.node? d.ensureShadow.1 = some n ∧ n.kind.isPage = true := by
  unfold ensureShadow
  cases hs : d.tree.shadow with
  | some s => exact ⟨h, .refl _, h.shadow_page hs⟩
  | none =>
    have hid := node?_nextId h
    have hgrown := grown_addAt h hid { kind := .page shadowName 0 true }
    obtain ⟨n, hn, -, hpage⟩ := (newRoot_addAt hid { kind := .page shadowName 0 true }).exists_node
    refine ⟨⟨hgrown.sound.toWellFormed.of_nodes_eq rfl, hgrown.sound.id_le_lastId, fun hs => ?_⟩,
      hgrown.old, n, hn, hpage⟩
    obtain rfl := Option.some.inj hs
    exact ⟨n, hn, hpage⟩

/-- The draft in which the copy stands in the shadow document, and its source does not yet mirror
it. -/
def shared (owner : Option String) (b : Branch) (d : Draft) : Draft :=
  let d₁ := d.ensureShadow
  let d₂ := d₁.2.cloneBranch owner b
  d₂.2.attach d₁.1 d₂.1 (d₂.2.tree.children d₁.1).length

theorem shareBranch_eq (owner : Option String) (b : Branch) (d : Draft) :
    (Edit.shareBranch owner b d).2 =
      ((shared owner b d).setDocument (d.ensureShadow.2.cloneBranch owner b).1
        (some d.ensureShadow.1)).link b.id (d.ensureShadow.2.cloneBranch owner b).1 := by
  simp only [Edit.shareBranch, shared]

/-- What is known before a copy is put into the shadow document: it is a new root and the shadow
page is not below it. -/
theorem sharing_ready (owner : Option String) (h : d.tree.Sound) (hb : b.InnerPlain)
    (hpage : b.node.kind.isPage = false) :
    ∃ m n, (d.ensureShadow.2.cloneBranch owner b).2.tree.Sound ∧
      Extends d.tree (d.ensureShadow.2.cloneBranch owner b).2.tree ∧
      (d.ensureShadow.2.cloneBranch owner b).2.tree.node? d.ensureShadow.1 = some m ∧
      (d.ensureShadow.2.cloneBranch owner b).2.tree.node?
        (d.ensureShadow.2.cloneBranch owner b).1 = some n ∧
      m.kind.isPage = true ∧ n.parent = none ∧ n.kind.isPage = false ∧
      ¬ (d.ensureShadow.2.cloneBranch owner b).2.tree.Within d.ensureShadow.1
        (d.ensureShadow.2.cloneBranch owner b).1 := by
  obtain ⟨hsound, hext, m, hm, hmpage⟩ := ensured h
  obtain ⟨hsound', hext', hnew⟩ := cloned owner hsound hb
  obtain ⟨n, hn, hroot, hnpage⟩ := hnew.exists_node
  exact ⟨m, n, hsound', hext.trans hext', hext' hm, hn, hmpage, hroot, hnpage.trans hpage,
    hext'.not_within hsound.toWellFormed hm hnew.new⟩

theorem sound_shared (owner : Option String) (h : d.tree.Sound) (hb : b.InnerPlain)
    (hpage : b.node.kind.isPage = false) :
    (shared owner b d).tree.Sound := by
  obtain ⟨m, n, hsound, -, hm, hn, -, hroot, hnpage, hout⟩ := sharing_ready owner h hb hpage
  exact hsound.attach hm hn hroot hnpage hout

theorem relocated_shared (owner : Option String) (h : d.tree.Sound) (hb : b.InnerPlain)
    (hpage : b.node.kind.isPage = false) :
    Relocated (d.ensureShadow.2.cloneBranch owner b).2.tree (shared owner b d).tree := by
  obtain ⟨m, n, hsound, -, hm, hn, -, hroot, -, hout⟩ := sharing_ready owner h hb hpage
  exact ⟨_, rewritten_attach hsound.toWellFormed hn hroot (fun he => hout (he ▸ .refl)) hm,
    fun _ => ⟨rfl, rfl, rfl⟩⟩

/-! ### What changes keep -/

theorem movable_of_admits {p c : NodeId} {r : Option NodeId} (h : d.tree.WellFormed)
    (ha : e.Admits d.tree p c r) : Movable d.tree p c where
  exists_parent := let ⟨m, hm, _⟩ := ha.exists_parent; ⟨m, hm⟩
  exists_child := ha.exists_child
  not_within hw := by
    rcases hw.eq_or_below with heq | hb
    · exact ha.ne heq
    · exact Bool.false_ne_true (ha.not_ancestor ▸ h.isAncestor_iff.mpr hb)

theorem sound_shareBranch (owner : Option String) (h : d.tree.Sound) (hb : b.InnerPlain)
    (hpage : b.node.kind.isPage = false) : (Edit.shareBranch owner b d).2.tree.Sound := by
  have hsound := (sound_shared owner h hb hpage).setDocument
    (d.ensureShadow.2.cloneBranch owner b).1 (some d.ensureShadow.1)
  rw [shareBranch_eq]
  exact hsound.link b.id _

theorem keeps_shareBranch [Content.Steady Q] (owner : Option String) (h : d.tree.Sound)
    (hb : b.InnerPlain) (hpage : b.node.kind.isPage = false) :
    Keeps Q d.tree (Edit.shareBranch owner b d).2.tree := by
  obtain ⟨-, -, -, hext, -⟩ := sharing_ready owner h hb hpage
  have hsound := sound_shared owner h hb hpage
  have hmoved := (relocated_shared owner h hb hpage).trans (relocated_setDocument
    hsound.toWellFormed (d.ensureShadow.2.cloneBranch owner b).1 (some d.ensureShadow.1))
  have hkeyed := (hsound.setDocument (d.ensureShadow.2.cloneBranch owner b).1
    (some d.ensureShadow.1)).keyed
  rw [shareBranch_eq]
  exact (Keeps.of_extends hext).trans ((Keeps.of_relocated hmoved).trans (.link hkeyed _ _))

/-- Changes keep a tree sound. -/
theorem Change.sound (hc : Change e d d') (h : d.tree.Sound) : d'.tree.Sound := by
  cases hc with
  | place admitted => exact h.place (movable_of_admits h.toWellFormed admitted) _
  | detach child _ => exact h.detach child
  | discard _ _ _ => exact h.discard _
  | recast exists_node same_kind _ =>
    refine h.setContent fun n hn => ?_
    obtain rfl := Option.some.inj (exists_node.symm.trans hn)
    exact Kind.isPage_eq_of_same same_kind
  | clone exists_node branch =>
    rcases branch with rfl | rfl
    · exact (cloned _ h (getD_branch h.toWellFormed exists_node).2).1
    · exact (cloned _ h (innerPlain_leaf _)).1
  | createPage _ => exact h.addAt (node?_nextId h) _
  | create _ _ => exact (h.addAt (node?_nextId h) _).setDocument _ _
  | adopt _ _ _ _ => exact (h.detach _).setDocument _ _
  | link _ _ _ _ _ _ _ => exact h.link _ _
  | unlink mirror _ => exact h.unlink mirror
  | share exists_node not_page _ _ =>
    obtain ⟨hnode, hplain⟩ := getD_branch h.toWellFormed exists_node
    exact sound_shareBranch e.principal.name? h hplain (by rw [hnode, not_page])

/-- Nodes stay in the tree, and so does whatever a new content of the same kind keeps. -/
theorem Change.keeps [hQ : Content.Steady Q] (hc : Change e d d') (h : d.tree.Sound) :
    Keeps Q d.tree d'.tree := by
  have hwf := h.toWellFormed
  cases hc with
  | place admitted => exact .of_relocated ((movable_of_admits hwf admitted).relocated_place hwf _)
  | detach child _ => exact .of_relocated (relocated_detach hwf child)
  | discard _ _ _ => exact .of_relocated (relocated_discard hwf _)
  | recast exists_node same_kind _ =>
    refine .at_ (rewritten_setContent hwf.keyed _ _).node? (fun m hm => ?_) hwf.keyed
    obtain rfl := Option.some.inj (exists_node.symm.trans hm)
    exact hQ.recast same_kind
  | clone exists_node branch =>
    rcases branch with rfl | rfl
    · exact .of_extends (cloned _ h (getD_branch hwf exists_node).2).2.1
    · exact .of_extends (cloned _ h (innerPlain_leaf _)).2.1
  | createPage _ => exact .of_extends (Tree.extends_addAt (node?_nextId h) _)
  | create _ _ =>
    have hid := node?_nextId h
    exact .of_extends ((grown_addAt h hid _).setDocument hwf (newRoot_addAt hid _) _).1
  | adopt _ _ _ _ =>
    exact .of_relocated ((relocated_detach hwf _).trans (relocated_setDocument (hwf.detach _) _ _))
  | link _ _ _ _ _ _ _ => exact .link hwf.keyed _ _
  | unlink mirror _ => exact .at_ (node?_unlink hwf.keyed _) (fun _ _ => hQ.refl _) hwf.keyed
  | share exists_node not_page _ _ =>
    obtain ⟨hnode, hplain⟩ := getD_branch hwf exists_node
    exact keeps_shareBranch e.principal.name? h hplain (by rw [hnode, not_page])

/-- Nodes stay in the tree, and remain of their kind. -/
theorem Change.keepsKinds (hc : Change e d d') (h : d.tree.Sound) : KeepsKinds d.tree d'.tree :=
  hc.keeps h

theorem Changes.sound (hc : Changes e d d') (h : d.tree.Sound) : d'.tree.Sound := by
  induction hc with
  | refl => exact h
  | tail _ hstep ih => exact hstep.sound ih

theorem Changes.keeps [Content.Steady Q] (hc : Changes e d d') (h : d.tree.Sound) :
    Keeps Q d.tree d'.tree := by
  induction hc with
  | refl => exact .refl _
  | tail hsteps hstep ih => exact ih.trans (hstep.keeps (Changes.sound hsteps h))

theorem Changes.keepsKinds (hc : Changes e d d') (h : d.tree.Sound) :
    KeepsKinds d.tree d'.tree :=
  hc.keeps h

end Draft

end ContentTree
