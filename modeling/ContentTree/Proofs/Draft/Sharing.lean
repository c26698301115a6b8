import ContentTree.Proofs.Draft.Load
import ContentTree.Proofs.Tree.Sharing

/-!
# What nodes know of their components

Which node mirrors which component is kept in two tables of the tree and once more in the nodes. All
writes but links change none of the three, and links change them together.

## Main definitions

* `Tree.Shares`: nodes carry the components that the tables name, and these exist.
* `Tree.Bipartite`: nobody is on both sides, and mirrors are of the kind of their components.
* `Tree.SameSharing`: two trees agree in all three.

## Main results

* `Change.shares`, `Tree.Shares.load`: changes and loading keep the tables and the nodes together.
* `Change.bipartite`: changes keep mirrors and components apart.
-/

namespace ContentTree

open Relation

namespace Tree

open Draft (Relocated Grown)

variable {t t' t'' : Tree} {d : Draft} {id m c x : NodeId} {n : Node} {g : Node → Node}

/-- The component that a node carries. -/
def component? (t : Tree) (id : NodeId) : Option NodeId :=
  (t.node? id).bind Node.component

theorem component?_eq_of_node? (hn : t.node? id = some n) : t.component? id = n.component := by
  rw [component?, hn, Option.bind_some]

theorem component?_of_none (hid : t.node? id = none) : t.component? id = none := by
  rw [component?, hid, Option.bind_none]

/-- Nodes carry the components that the tables name, and the components exist. -/
structure Shares (t : Tree) : Prop where
  consistent : t.sharing.Consistent
  component?_eq : ∀ m, t.component? m = t.sharing.componentOf m
  exists_component : ∀ {m c}, t.sharing.componentOf m = some c → ∃ n, t.node? c = some n

theorem Shares.exists_mirror (h : t.Shares) (hm : t.sharing.componentOf m = some c) :
    ∃ n, t.node? m = some n ∧ n.component = some c :=
  Option.bind_eq_some_iff.mp ((h.component?_eq m).trans hm)

/-- Nobody both mirrors and is mirrored, in particular nobody mirrors itself, and mirrors are of the
kind of their components. -/
structure Bipartite (t : Tree) : Prop where
  one_sided : ∀ id, t.sharing.componentOf id = none ∨ t.sharing.hasMirrors id = false
  ne : ∀ m, t.sharing.componentOf m ≠ some m
  same_kind : ∀ {m c n k}, t.sharing.componentOf m = some c → t.node? m = some n →
    t.node? c = some k → n.kind.same k.kind = true

theorem shares_empty : ({} : Tree).Shares where
  consistent := Sharing.consistent_empty
  component?_eq m := by simp [component?, node?_empty, Sharing.componentOf]
  exists_component h := by simp [Sharing.componentOf] at h

theorem bipartite_of_sharing_eq (h : t.sharing = {}) : t.Bipartite where
  one_sided id := .inl (by simp [h, Sharing.componentOf])
  ne m := by simp [h, Sharing.componentOf]
  same_kind hm := by simp [h, Sharing.componentOf] at hm

/-! ### Writes other than links -/

/-- Two trees agree about components, in the tables and in the nodes. -/
structure SameSharing (t t' : Tree) : Prop where
  sharing : t'.sharing = t.sharing
  component? : ∀ id, t'.component? id = t.component? id

namespace SameSharing

theorem refl (t : Tree) : SameSharing t t := ⟨rfl, fun _ => rfl⟩

theorem trans (h : SameSharing t t') (h' : SameSharing t' t'') : SameSharing t t'' :=
  ⟨h'.sharing.trans h.sharing, fun id => (h'.component? id).trans (h.component? id)⟩

theorem of_nodes (hnodes : t'.nodes = t.nodes) (hsharing : t'.sharing = t.sharing) :
    SameSharing t t' :=
  ⟨hsharing, fun id => by rw [Tree.component?, Tree.component?, node?, node?, hnodes]⟩

theorem of_rewritten (hg : Rewritten g t t') (hkeep : ∀ n, (g n).component = n.component) :
    SameSharing t t' where
  sharing := hg.sharing
  component? id := by
    rw [Tree.component?, Tree.component?, hg.node?]
    cases t.node? id with
    | none => rfl
    | some n => exact hkeep n

theorem of_relocated (h : Relocated t t') : SameSharing t t' :=
  let ⟨_, hg, hkeep⟩ := h
  .of_rewritten hg fun n => (hkeep n).2.2

theorem of_grown (h : Grown t d) : SameSharing t d.tree where
  sharing := h.sharing
  component? id := by
    cases ht : t.node? id with
    | some n => rw [component?_eq_of_node? ht, component?_eq_of_node? (h.old ht)]
    | none =>
      rw [component?_of_none ht]
      cases hd : d.tree.node? id with
      | none => exact component?_of_none hd
      | some n => rw [component?_eq_of_node? hd, h.new_component hd ht]

end SameSharing

theorem Shares.of_same (h : t.Shares) (hs : SameSharing t t') (hk : KeepsKinds t t') :
    t'.Shares where
  consistent := hs.sharing ▸ h.consistent
  component?_eq m := by rw [hs.component?, hs.sharing, h.component?_eq]
  exists_component hm := by
    obtain ⟨n, hn⟩ := h.exists_component (hs.sharing ▸ hm)
    exact (hk hn).imp fun _ => And.left

/-- Where links only go, and nodes remain of their kind, mirrors and components stay apart. -/
theorem Bipartite.of_fewer (h : t.Bipartite) (ht : t.Shares) (ht' : t'.Shares)
    (hk : KeepsKinds t t')
    (hfewer : ∀ {m c}, t'.sharing.componentOf m = some c → t.sharing.componentOf m = some c) :
    t'.Bipartite where
  one_sided id := by
    by_contra hboth
    obtain ⟨hmirror, hmirrored⟩ := not_or.mp hboth
    obtain ⟨c, hc⟩ := Option.ne_none_iff_exists'.mp hmirror
    obtain ⟨m, hm⟩ := ht'.consistent.hasMirrors_iff.mp (Bool.eq_true_of_not_eq_false hmirrored)
    have hmirrored' := ht.consistent.hasMirrors_iff.mpr ⟨m, hfewer hm⟩
    rcases h.one_sided id with hnone | hnone
    · exact nomatch hnone.symm.trans (hfewer hc)
    · exact Bool.false_ne_true (hnone.symm.trans hmirrored')
  ne m hm := h.ne m (hfewer hm)
  same_kind {m c n' k'} hm hn' hk' := by
    obtain ⟨n, hn, -⟩ := ht.exists_mirror (hfewer hm)
    obtain ⟨k, hc⟩ := ht.exists_component (hfewer hm)
    obtain ⟨_, hn'', hnn⟩ := hk hn
    obtain ⟨_, hk'', hkk⟩ := hk hc
    obtain rfl := Option.some.inj (hn'.symm.trans hn'')
    obtain rfl := Option.some.inj (hk'.symm.trans hk'')
    exact Kind.same_trans (Kind.same_symm hnn) (Kind.same_trans (h.same_kind (hfewer hm) hn hc) hkk)

/-! ### Links -/

theorem component?_link (hk : d.tree.Keyed) (hm : d.tree.node? m = some n) (c x : NodeId) :
    (d.link m c).tree.component? x = if x = m then some c else d.tree.component? x := by
  rw [component?, component?, Draft.node?_link hk]
  cases hx : d.tree.node? x with
  | none =>
    have hne : x ≠ m := by
      rintro rfl
      exact Option.some_ne_none _ (hm.symm.trans hx)
    simp [hne]
  | some k =>
    have hid := hk hx
    by_cases hxm : x = m <;> simp [Draft.at_, hid, hxm]

theorem component?_unlink (hk : d.tree.Keyed) (m x : NodeId) :
    (d.unlink m).tree.component? x = if x = m then none else d.tree.component? x := by
  rw [component?, component?, Draft.node?_unlink hk]
  cases hx : d.tree.node? x with
  | none => simp
  | some k =>
    have hid := hk hx
    by_cases hxm : x = m <;> simp [Draft.at_, hid, hxm]

theorem sharing_link (d : Draft) (m c : NodeId) :
    (d.link m c).tree.sharing = d.tree.sharing.link m c := by
  rw [Draft.tree_link]

theorem sharing_unlink (d : Draft) (m : NodeId) :
    (d.unlink m).tree.sharing = d.tree.sharing.unlink m := by
  rw [Draft.tree_unlink]

theorem Shares.link (h : d.tree.Shares) (hk : d.tree.Keyed) (hm : d.tree.node? m = some n)
    {k : Node} (hc : d.tree.node? c = some k) : (d.link m c).tree.Shares where
  consistent := sharing_link d m c ▸ h.consistent.link m c
  component?_eq x := by
    rw [component?_link hk hm, sharing_link, Sharing.componentOf_link, h.component?_eq]
  exists_component {x y} hx := by
    have hstay : ∃ n, d.tree.node? y = some n := by
      rw [sharing_link, Sharing.componentOf_link] at hx
      split at hx
      · exact Option.some.inj hx ▸ ⟨k, hc⟩
      · exact h.exists_component hx
    obtain ⟨n, hn⟩ := hstay
    exact ⟨_, by rw [Draft.node?_link hk, hn, Option.map_some]⟩

theorem Shares.unlink (h : d.tree.Shares) (hk : d.tree.Keyed) (m : NodeId) :
    (d.unlink m).tree.Shares where
  consistent := sharing_unlink d m ▸ h.consistent.unlink m
  component?_eq x := by
    rw [component?_unlink hk, sharing_unlink, Sharing.componentOf_unlink, h.component?_eq]
  exists_component {x y} hx := by
    rw [sharing_unlink, Sharing.componentOf_unlink] at hx
    split at hx
    · exact nomatch hx
    · obtain ⟨n, hn⟩ := h.exists_component hx
      exact ⟨_, by rw [Draft.node?_unlink hk, hn, Option.map_some]⟩

end Tree

namespace Draft

open ContentTree.Tree (KeepsKinds SameSharing)

variable {d d' : Draft} {e : Editor} {b : Branch} {m c id : NodeId} {n k : Node}
  {owner : Option String}

/-- What a link asks for: two nodes of one kind, the one not mirrored and the other no mirror. -/
structure Linkable (d : Draft) (m c : NodeId) : Prop where
  same_kind : ∃ n k, d.tree.node? m = some n ∧ d.tree.node? c = some k ∧
    n.kind.same k.kind = true
  ne : m ≠ c
  not_mirror : d.tree.sharing.componentOf c = none
  not_mirrored : d.tree.sharing.hasMirrors m = false

/-- A link that has what it asks for keeps mirrors and components apart, also where it takes the
mirror away from another component. -/
theorem Linkable.bipartite (h : d.Linkable m c) (hd : d.tree.Keyed) (hs : d.tree.Shares)
    (hs' : (d.link m c).tree.Shares) (hb : d.tree.Bipartite) : (d.link m c).tree.Bipartite := by
  obtain ⟨n, k, hn, hk, hkind⟩ := h.same_kind
  have hcomponent := Sharing.componentOf_link d.tree.sharing m c
  rw [← Tree.sharing_link] at hcomponent
  have hkeep : KeepsKinds d.tree (d.link m c).tree := .link hd m c
  refine ⟨fun x => ?one_sided, fun x hx => ?ne, fun {x y n' k'} hx hn' hk' => ?same_kind⟩
  case one_sided =>
    by_contra hboth
    obtain ⟨hmirror, hmirrored⟩ := not_or.mp hboth
    obtain ⟨z, hz⟩ := hs'.consistent.hasMirrors_iff.mp (Bool.eq_true_of_not_eq_false hmirrored)
    rw [hcomponent] at hz hmirror
    split at hz
    · -- The component is no mirror before, and is not linked now.
      obtain rfl := Option.some.inj hz
      rw [if_neg h.ne.symm] at hmirror
      exact hmirror h.not_mirror
    · have hmirrored' := hs.consistent.hasMirrors_iff.mpr ⟨z, hz⟩
      split at hmirror
      · next hxm => exact Bool.false_ne_true (h.not_mirrored.symm.trans (hxm ▸ hmirrored'))
      · rcases hb.one_sided x with hnone | hnone
        · exact hmirror hnone
        · exact Bool.false_ne_true (hnone.symm.trans hmirrored')
  case ne =>
    rw [hcomponent] at hx
    split at hx
    · next hxm => exact h.ne (hxm.symm.trans (Option.some.inj hx).symm)
    · exact hb.ne x hx
  case same_kind =>
    have hold : ∃ n k, d.tree.node? x = some n ∧ d.tree.node? y = some k ∧
        n.kind.same k.kind = true := by
      rw [hcomponent] at hx
      split at hx
      · next hxm =>
        obtain rfl := Option.some.inj hx
        exact ⟨n, k, hxm ▸ hn, hk, hkind⟩
      · obtain ⟨n, hn, -⟩ := hs.exists_mirror hx
        obtain ⟨k, hk⟩ := hs.exists_component hx
        exact ⟨n, k, hn, hk, hb.same_kind hx hn hk⟩
    obtain ⟨n, k, hn, hk, hkind⟩ := hold
    obtain ⟨_, hn'', hnn⟩ := hkeep hn
    obtain ⟨_, hk'', hkk⟩ := hkeep hk
    obtain rfl := Option.some.inj (hn'.symm.trans hn'')
    obtain rfl := Option.some.inj (hk'.symm.trans hk'')
    exact Kind.same_trans (Kind.same_symm hnn) (Kind.same_trans hkind hkk)

/-! ### Changes -/

theorem sameSharing_ensureShadow (h : d.tree.Sound) : SameSharing d.tree d.ensureShadow.2.tree := by
  unfold ensureShadow
  split
  · exact .refl _
  · exact (SameSharing.of_grown (grown_addAt h (node?_nextId h) _)).trans (.of_nodes rfl rfl)

theorem sameSharing_cloneBranch (owner : Option String) (h : d.tree.Sound) (hb : b.InnerPlain) :
    SameSharing d.tree (d.cloneBranch owner b).2.tree := by
  obtain ⟨hgrown, -⟩ := grown_copy owner b d h hb
  exact (SameSharing.of_grown hgrown).trans
    (.of_relocated (relocated_setDocument hgrown.sound.toWellFormed _ _))

/-- When a shared component is made of a node, the copy stands ready before it is linked. -/
theorem exists_linkable_shareBranch (owner : Option String) (h : d.tree.Sound)
    (hs : d.tree.Shares) (hb : b.InnerPlain) (hpage : b.node.kind.isPage = false)
    (hnode : d.tree.node? b.id = some b.node) (hsynced : d.tree.sharing.hasMirrors b.id = false) :
    ∃ (d₁ : Draft) (c : NodeId), SameSharing d.tree d₁.tree ∧ KeepsKinds d.tree d₁.tree ∧
      d₁.tree.Keyed ∧ d₁.Linkable b.id c ∧
      (Edit.shareBranch owner b d).2 = d₁.link b.id c := by
  obtain ⟨hsound₁, hext₁, -⟩ := ensured h
  obtain ⟨hsound₂, hext₂, hnew⟩ := cloned owner hsound₁ hb
  have hsound₃ := sound_shared owner h hb hpage
  have hmoved := (relocated_shared owner h hb hpage).trans (relocated_setDocument
    hsound₃.toWellFormed (d.ensureShadow.2.cloneBranch owner b).1 (some d.ensureShadow.1))
  have hsame := (sameSharing_ensureShadow h).trans
    ((sameSharing_cloneBranch owner hsound₁ hb).trans (.of_relocated hmoved))
  have hkeep : KeepsKinds d.tree _ :=
    (Tree.Keeps.of_extends (hext₁.trans hext₂)).trans (.of_relocated hmoved)
  obtain ⟨k, hk, -, hkind⟩ := hnew.exists_same
  obtain ⟨k', hk', hcontent, -⟩ := hmoved.exists_node hk
  obtain ⟨n', hn', hnn⟩ := hkeep hnode
  -- The copy is not in the tree yet, so that nobody has a link to it or from it.
  have hnone : d.tree.node? (d.ensureShadow.2.cloneBranch owner b).1 = none := by
    by_contra hne
    obtain ⟨x, hx⟩ := Option.ne_none_iff_exists'.mp hne
    exact Option.some_ne_none _ ((hext₁ hx).symm.trans hnew.new)
  refine ⟨_, _, hsame, hkeep, (hsound₃.setDocument _ _).keyed, ⟨⟨n', k', hn', hk', ?_⟩, ?_, ?_, ?_⟩,
    shareBranch_eq owner b d⟩
  · rw [hcontent]
    exact Kind.same_trans (Kind.same_symm hnn) hkind
  · intro heq
    rw [heq, hnone] at hnode
    exact nomatch hnode
  · rw [hsame.sharing, ← hs.component?_eq, Tree.component?_of_none hnone]
  · rw [hsame.sharing, hsynced]

/-- What a change does to the links: nothing, or it takes one away, or it makes one that has what
it asks for, after writes that change no links. -/
theorem Change.sharing_cases (hc : Change e d d') (h : d.tree.Sound) (hs : d.tree.Shares) :
    SameSharing d.tree d'.tree ∨ (∃ m, d' = d.unlink m) ∨
      ∃ (d₁ : Draft) (m c : NodeId), SameSharing d.tree d₁.tree ∧ KeepsKinds d.tree d₁.tree ∧
        d₁.tree.Keyed ∧ d₁.Linkable m c ∧ d' = d₁.link m c := by
  have hwf := h.toWellFormed
  cases hc with
  | place admitted =>
    exact .inl (.of_relocated ((movable_of_admits hwf admitted).relocated_place hwf _))
  | detach child _ => exact .inl (.of_relocated (relocated_detach hwf child))
  | discard _ _ _ => exact .inl (.of_relocated (relocated_discard hwf _))
  | recast _ _ _ =>
    refine .inl (.of_rewritten (rewritten_setContent hwf.keyed _ _) fun n => ?_)
    unfold at_
    split <;> rfl
  | clone exists_node branch =>
    rcases branch with rfl | rfl
    · exact .inl (sameSharing_cloneBranch _ h (getD_branch hwf exists_node).2)
    · exact .inl (sameSharing_cloneBranch _ h (innerPlain_leaf _))
  | createPage _ => exact .inl (.of_grown (grown_addAt h (node?_nextId h) _))
  | create _ _ =>
    have hgrown := grown_addAt h (node?_nextId h)
    exact .inl ((SameSharing.of_grown (hgrown _)).trans
      (.of_relocated (relocated_setDocument (hgrown _).sound.toWellFormed _ _)))
  | adopt _ _ _ _ =>
    exact .inl (.of_relocated
      ((relocated_detach hwf _).trans (relocated_setDocument (hwf.detach _) _ _)))
  | link exists_mirror exists_component ne same_kind not_mirror not_mirrored _ =>
    exact .inr (.inr ⟨d, _, _, .refl _, .refl _, hwf.keyed,
      ⟨⟨_, _, exists_mirror, exists_component, same_kind⟩, ne, not_mirror, not_mirrored⟩, rfl⟩)
  | unlink mirror _ => exact .inr (.inl ⟨mirror, rfl⟩)
  | @share id n exists_node not_page not_synced _ =>
    obtain ⟨hnode, hplain⟩ := getD_branch hwf exists_node
    rw [Tree.isSynced, Sharing.isSynced, Bool.or_eq_false_iff] at not_synced
    have hid : ((d.tree.branch? id).getD ⟨n, []⟩).id = id :=
      (congrArg Node.id hnode).trans (hwf.keyed exists_node)
    obtain ⟨d₁, c, hready⟩ := exists_linkable_shareBranch e.principal.name? h hs hplain
      (by rw [hnode, not_page]) (by rw [hid, hnode, exists_node]) (by rw [hid, not_synced.2])
    exact .inr (.inr ⟨d₁, _, c, hready⟩)

theorem Change.shares (hc : Change e d d') (h : d.tree.Sound) (hs : d.tree.Shares) :
    d'.tree.Shares := by
  rcases hc.sharing_cases h hs with hsame | ⟨m, rfl⟩ | ⟨d₁, m, c, hsame, hkeep, hk, hlink, rfl⟩
  · exact hs.of_same hsame (hc.keepsKinds h)
  · exact hs.unlink h.keyed m
  · obtain ⟨n, k, hn, hk', -⟩ := hlink.same_kind
    exact (hs.of_same hsame hkeep).link hk hn hk'

/-- Changes keep mirrors and components apart. -/
theorem Change.bipartite (hc : Change e d d') (h : d.tree.Sound) (hs : d.tree.Shares)
    (hb : d.tree.Bipartite) : d'.tree.Bipartite := by
  have hs' := hc.shares h hs
  rcases hc.sharing_cases h hs with hsame | ⟨m, rfl⟩ | ⟨d₁, m, c, hsame, hkeep, hk, hlink, rfl⟩
  · exact hb.of_fewer hs hs' (hc.keepsKinds h) fun hm => hsame.sharing ▸ hm
  · refine hb.of_fewer hs hs' (hc.keepsKinds h) fun {x y} hx => ?_
    rw [Tree.sharing_unlink, Sharing.componentOf_unlink] at hx
    split at hx
    · exact nomatch hx
    · exact hx
  · have hs₁ := hs.of_same hsame hkeep
    exact hlink.bipartite hk hs₁ hs'
      (hb.of_fewer hs hs₁ hkeep fun hm => hsame.sharing ▸ hm)

theorem Changes.shares (hc : Changes e d d') (h : d.tree.Sound) (hs : d.tree.Shares) :
    d'.tree.Shares := by
  induction hc with
  | refl => exact hs
  | tail hsteps hstep ih => exact hstep.shares (Changes.sound hsteps h) ih

theorem Changes.bipartite (hc : Changes e d d') (h : d.tree.Sound) (hs : d.tree.Shares)
    (hb : d.tree.Bipartite) : d'.tree.Bipartite := by
  induction hc with
  | refl => exact hb
  | tail hsteps hstep ih =>
    exact hstep.bipartite (Changes.sound hsteps h) (Changes.shares hsteps h hs) ih

theorem sameSharing_bumpVersion (h : d.tree.Keyed) (page : NodeId) :
    SameSharing d.tree (d.bumpVersion page).tree := by
  refine .of_rewritten (rewritten_bumpVersion h page) fun n => ?_
  unfold at_ bumped
  split
  · split <;> rfl
  · rfl

end Draft

/-! ### Loading -/

namespace Loading

open ContentTree.Tree (SameSharing)

variable {t : Tree} {d d' : Draft} {content : Content} {root : NodeId}

theorem sameSharing_enclose (h : d.tree.WellFormed) :
    SameSharing d.tree (enclose content root d).tree := by
  rw [enclose]
  split
  · refine SameSharing.trans ?_ (.of_relocated (Draft.relocated_setDocument ?_ root _))
    · split <;> exact .of_nodes rfl rfl
    · split <;> exact h.of_nodes_eq rfl
  · exact .of_relocated (Draft.relocated_setDocument h root _)

theorem Links.shares (h : Links t d d') (hd : d.tree.Sound) (hs : d.tree.Shares) :
    d'.tree.Shares := by
  induction h with
  | refl => exact hs
  | tail hsteps hstep ih =>
    obtain ⟨m, c, ⟨-, n, hn⟩, hc, rfl⟩ := hstep
    obtain ⟨k, hk⟩ := Tree.contains_iff.mp hc
    exact ih.link (Links.sound hsteps hd).keyed hn hk

end Loading

/-- Loading keeps the tables and the nodes together, also where it fails. -/
theorem Tree.Shares.load {t : Tree} (hs : t.Shares) (h : t.Sound) (s : Snapshot) :
    (t.load s).2.Shares := by
  rcases Loading.snapshot_cases (d := Draft.start t) h s with
    ⟨-, hd⟩ | ⟨d', root, hd, hroot, hlinks⟩
  · exact hs.of_same (.of_grown hd) (.of_extends hd.old)
  · have hwf := hd.sound.toWellFormed
    refine hlinks.shares (Loading.sound_enclose hd hroot)
      (hs.of_same ((Tree.SameSharing.of_grown hd).trans (Loading.sameSharing_enclose hwf)) ?_)
    exact (Tree.Keeps.of_extends hd.old).trans (Loading.keepsKinds_enclose hwf)

end ContentTree
