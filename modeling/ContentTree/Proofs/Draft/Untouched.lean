import ContentTree.Proofs.Draft.Change

/-!
# Changes without write access

Whoever may not write a single node can still copy nodes, and create pages and nodes outside every
document. All of this only adds nodes, and the new nodes stand apart from the old ones.

## Main definitions

* `Tree.Untouched`: a tree holds the nodes of another, besides others that stand apart from them.

## Main results

* `Untouched.of_newRoot`, `Untouched.bumpVersion`: single steps.
* `Changes.untouched`: changes on behalf of someone who may write nothing.
-/

namespace ContentTree

open Relation

/-- A node with another version, if it is a page. -/
def Node.withVersion (version : Nat) (n : Node) : Node :=
  { n with kind := n.kind.withVersion version }

namespace Kind

theorem withVersion_self {k : Kind} {version : Nat} (h : ∀ v, k.version? = some v → v = version) :
    k.withVersion version = k := by
  cases k with
  | page name v shadow => rw [withVersion, h v rfl]
  | _ => rfl

end Kind

namespace Node

theorem exists_withVersion_self (n : Node) : ∃ version, n.withVersion version = n := by
  refine ⟨n.kind.version?.getD 0, ?_⟩
  rw [withVersion, Kind.withVersion_self fun v hv => by rw [hv, Option.getD_some]]

theorem withVersion_withVersion (n : Node) (version version' : Nat) :
    (n.withVersion version).withVersion version' = n.withVersion version' := by
  simp only [withVersion, Kind.withVersion_withVersion]

theorem exists_bumped_eq (n : Node) : ∃ version, Draft.bumped n = n.withVersion version := by
  unfold Draft.bumped
  split
  · next version _ => exact ⟨version + 1, rfl⟩
  · exact n.exists_withVersion_self.imp fun _ h => h.symm

end Node

namespace Tree

open ContentTree.Draft (NewRoot)

variable {t t' t'' : Tree} {d : Draft} {id x p : NodeId} {n : Node}

/-- A tree holds the nodes of another as they are there, apart from the versions of pages. The new
nodes stand apart from the old ones: at or below a new node without a parent. They mirror nothing,
so that the links are the same, and so is the shadow page. -/
structure Untouched (t t' : Tree) : Prop where
  node : ∀ {id n}, t.node? id = some n → ∃ version, t'.node? id = some (n.withVersion version)
  apart : ∀ {id n}, t'.node? id = some n → t.node? id = none →
    n.component = none ∧ ∃ root, t'.Within id root ∧ t.node? root = none ∧ t'.parent? root = none
  sharing : t'.sharing = t.sharing
  shadow : t'.shadow = t.shadow

namespace Untouched

theorem of_extends (h : Extends t t') (hapart : ∀ {id n}, t'.node? id = some n →
      t.node? id = none → n.component = none ∧
        ∃ root, t'.Within id root ∧ t.node? root = none ∧ t'.parent? root = none)
    (hsharing : t'.sharing = t.sharing) (hshadow : t'.shadow = t.shadow) : Untouched t t' where
  node {id n} hn := n.exists_withVersion_self.imp fun _ hv => by rw [hv, h hn]
  apart := hapart
  sharing := hsharing
  shadow := hshadow

theorem refl (t : Tree) : Untouched t t :=
  .of_extends (.refl t) (fun hn hid => absurd (hn.symm.trans hid) (Option.some_ne_none _)) rfl rfl

theorem parent?_eq (h : Untouched t t') (hn : t.node? id = some n) :
    t'.parent? id = t.parent? id := by
  obtain ⟨version, hn'⟩ := h.node hn
  rw [Tree.parent?_eq hn', Tree.parent?_eq hn]
  rfl

theorem within (h : Untouched t t') (hw : t.Within x p) : t'.Within x p := by
  refine ReflTransGen.mono (fun c q hc => ?_) _ _ hw
  obtain ⟨n, hn, -⟩ := Under.exists_node hc
  exact (h.parent?_eq hn).trans hc

theorem none_of_none (h : Untouched t t') (hid : t'.node? id = none) : t.node? id = none := by
  cases hn : t.node? id with
  | none => rfl
  | some n =>
    obtain ⟨_, hn'⟩ := h.node hn
    exact absurd (hn'.symm.trans hid) (Option.some_ne_none _)

theorem trans (ht' : t'.WellFormed) (h : Untouched t t') (h' : Untouched t' t'') :
    Untouched t t'' where
  node hn := by
    obtain ⟨version, hn'⟩ := h.node hn
    obtain ⟨version', hn''⟩ := h'.node hn'
    exact ⟨version', by rw [hn'', Node.withVersion_withVersion]⟩
  apart {id n} hn hid := by
    cases hid' : t'.node? id with
    | none =>
      obtain ⟨hcomponent, root, hw, hroot, hparent⟩ := h'.apart hn hid'
      exact ⟨hcomponent, root, hw, h.none_of_none hroot, hparent⟩
    | some m =>
      -- The node was new in between, and stays where it was put then.
      obtain ⟨hcomponent, root, hw, hroot, hparent⟩ := h.apart hid' hid
      obtain ⟨version, hn'⟩ := h'.node hid'
      obtain rfl := Option.some.inj (hn.symm.trans hn')
      obtain ⟨r, hr⟩ := ht'.exists_of_within hw hid'
      exact ⟨hcomponent, root, h'.within hw, hroot, (h'.parent?_eq hr).trans hparent⟩
  sharing := h'.sharing.trans h.sharing
  shadow := h'.shadow.trans h.shadow

/-- A new branch stands apart. -/
theorem of_newRoot {kind : Kind} (hext : Extends t d.tree) (hroot : NewRoot t d id kind)
    (hcomponent : ∀ {x n}, d.tree.node? x = some n → t.node? x = none → n.component = none)
    (hsharing : d.tree.sharing = t.sharing) (hshadow : d.tree.shadow = t.shadow) :
    Untouched t d.tree := by
  obtain ⟨r, hr, hparent, -⟩ := hroot.exists_node
  refine .of_extends hext (fun hn hx => ⟨hcomponent hn hx, id, hroot.within hn hx, hroot.new, ?_⟩)
    hsharing hshadow
  exact (Tree.parent?_eq hr).trans hparent

theorem of_grown {kind : Kind} (h : Draft.Grown t d) (hroot : NewRoot t d id kind) :
    Untouched t d.tree :=
  .of_newRoot h.old hroot h.new_component h.sharing h.shadow

/-- The same when the new branch has entered a document. -/
theorem of_grown_setDocument {kind : Kind} (h : Draft.Grown t d) (ht : t.WellFormed)
    (hroot : NewRoot t d id kind) (document : Option NodeId) :
    Untouched t (d.setDocument id document).tree := by
  have hg := Draft.rewritten_setDocument h.sound.keyed id document
  obtain ⟨hext, hroot'⟩ := h.setDocument ht hroot document
  refine .of_newRoot hext hroot' (fun hn hx => ?_) (hg.sharing.trans h.sharing)
    (hg.shadow.trans h.shadow)
  obtain ⟨m, hm, rfl⟩ := hg.exists_of_some hn
  have hcomponent := h.new_component hm hx
  unfold Draft.documented
  split <;> exact hcomponent

/-- A higher version touches nothing else. -/
theorem bumpVersion (hd : d.tree.Keyed) (page : NodeId) :
    Untouched d.tree (d.bumpVersion page).tree := by
  have hg := Draft.rewritten_bumpVersion hd page
  refine ⟨fun {id n} hn => ?_, fun {id n} hn hid => ?_, hg.sharing, hg.shadow⟩
  · rw [hg.node?_of_some hn]
    unfold Draft.at_
    split
    · exact n.exists_bumped_eq.imp fun _ h => by rw [h]
    · exact n.exists_withVersion_self.imp fun _ h => by rw [h]
  · obtain ⟨m, hm, -⟩ := hg.exists_of_some hn
    exact absurd (hm.symm.trans hid) (Option.some_ne_none _)

end Untouched

end Tree

namespace Draft

open ContentTree.Tree (Untouched)

variable {d d' : Draft} {e : Editor}

/-- Whoever may write nothing can only copy and create, and not into a document. -/
theorem Change.untouched (hc : Change e d d') (hd : d.tree.Sound) (he : ¬ e.Writes) :
    Untouched d.tree d'.tree := by
  have hwf := hd.toWellFormed
  cases hc with
  | clone exists_node branch =>
    rename_i id n b
    have hplain : b.InnerPlain := by
      rcases branch with rfl | rfl
      · exact (getD_branch hwf exists_node).2
      · exact innerPlain_leaf n
    obtain ⟨hgrown, hnew⟩ := grown_copy e.principal.name? b d hd hplain
    exact .of_grown_setDocument hgrown hwf hnew _
  | createPage _ =>
    have hid := node?_nextId hd
    exact .of_grown (grown_addAt hd hid _) (newRoot_addAt hid _)
  | create _ _ =>
    have hid := node?_nextId hd
    exact .of_grown_setDocument (grown_addAt hd hid _) hwf (newRoot_addAt hid _) _
  | place admitted => exact absurd (Editor.writes_of_mayWrite admitted.writable) he
  | detach _ writes | discard _ _ writes | recast _ _ writes | adopt _ _ _ writes
  | link _ _ _ _ _ _ writes | unlink _ writes | share _ _ _ writes => exact absurd writes he

theorem Changes.untouched (hc : Changes e d d') (hd : d.tree.Sound) (he : ¬ e.Writes) :
    Untouched d.tree d'.tree := by
  induction hc with
  | refl => exact .refl _
  | tail hsteps hstep ih =>
    have hd' := Changes.sound hsteps hd
    exact .trans hd'.toWellFormed ih (hstep.untouched hd' he)

end Draft

end ContentTree
