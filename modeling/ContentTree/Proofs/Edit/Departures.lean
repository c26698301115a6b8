import ContentTree.Proofs.Edit.Joins

/-!
# Children that leave their parents

An operation may take a child from its parent only on behalf of someone who may write the parent,
with one exception: a node that is put somewhere else leaves its old parent behind without a
question. What is asked then is whether the principal may write the node that receives it, which is
the new parent, or the page that adopts the node.

## Main definitions

* `Draft.Hands`: who stood below a node stands there still, or below a receiver.
* `Departure`: the ways in which a child can leave its parent.
* `Departure.Permitted`: what must have been writable for a child to leave.
* `Edit.Single`: the single operations, each with its way.

## Main results

* `Edit.hands_insert`, `Edit.hands_clone` and others: what each operation hands over, and to whom.
* `Edit.Single.permitted`: children leave only where that is permitted.
-/

namespace ContentTree

/-! ### Handing children over -/

namespace Draft

variable {d d' : Draft} {e : Editor} {p c id : NodeId} {receiver : Option NodeId}
  {reference : Option NodeId}

/-- Whoever stands below a node still stands there, or stands below the receiver. -/
structure Hands (receiver : Option NodeId) (d d' : Draft) : Prop where
  sound : d.tree.Sound → d'.tree.Sound
  under : d.tree.Sound → ∀ {x z}, d.tree.Under x z →
    d'.tree.Under x z ∨ ∃ r ∈ receiver, d'.tree.Under x r

instance : IsPreorder Draft (Hands receiver) where
  refl _ := ⟨fun h => h, fun _ _ _ h => .inl h⟩
  trans d d' d'' h h' := by
    refine ⟨fun hd => h'.sound (h.sound hd), fun hd x z hx => ?_⟩
    rcases h.under hd hx with hx | ⟨r, hr, hx⟩
    · exact h'.under (h.sound hd) hx
    · -- Whoever went to the receiver is there still, or went there once more.
      rcases h'.under (h.sound hd) hx with hx | hx
      · exact .inr ⟨r, hr, hx⟩
      · exact .inr hx

/-- Where nobody loses a child, nothing is handed over. -/
theorem Hands.of_change (hc : d.Change e d')
    (hkeep : d.tree.Sound → ∀ {x z}, d.tree.Under x z → d'.tree.Under x z) :
    Hands receiver d d' :=
  ⟨hc.sound, fun hd _ _ hx => .inl (hkeep hd hx)⟩

theorem hands_place (ha : e.Admits d.tree p c reference) :
    Hands (some p) d (d.place p c reference) where
  sound h := h.place (movable_of_admits h.toWellFormed ha) reference
  under h x z hx := by
    have hm := movable_of_admits h.toWellFormed ha
    by_cases hxc : x = c
    · refine .inr ⟨p, rfl, ?_⟩
      rw [hm.under_place h.toWellFormed, if_pos hxc]
    · refine .inl ?_
      rwa [hm.under_place h.toWellFormed, if_neg hxc]

end Draft

namespace Edit

open ContentTree.Draft (Hands)

variable {e : Editor} {d d' : Draft} {z p c id old : NodeId} {n : Node}
  {reference receiver : Option NodeId}

theorem hands_insert (p c : NodeId) (reference : Option NodeId) :
    Leads (Hands (some p)) e d (insert p c reference) :=
  leads_insert fun _ _ _ _ ha => Draft.hands_place ha

/-- Whoever has put something into place may write the new parent. -/
theorem mayWrite_of_insert {u : Unit} (h : (insert p c reference).run e d = (.ok u, d')) :
    e.mayWrite d.tree p = .ok () := by
  obtain ⟨n, d₁, hcheck, h⟩ := run_bind_eq_ok.mp h
  obtain ⟨-, rfl⟩ := run_check_eq_ok.mp hcheck
  split at h
  · obtain ⟨_, d₁, hcheck, -⟩ := run_bind_eq_ok.mp h
    exact (bind_unit_eq_ok.mp (run_check_eq_ok.mp hcheck).1).1
  · obtain ⟨_, d₁, hcheck, -⟩ := run_bind_eq_ok.mp h
    exact (Editor.admits_eq_ok.mp (run_check_eq_ok.mp hcheck).1).writable

/-! ### Operations that take no child away -/

theorem hands_clone (deep : Bool) : Leads (Hands none) e d (clone id deep) := by
  refine .check_bind fun n h => .read_bind (.tree_bind (.writeNode ?_))
  have hn := Tree.require_eq_ok.mp h
  have hbranch : (if deep then (d.tree.branch? id).getD ⟨n, []⟩ else ⟨n, []⟩ : Branch) =
      (d.tree.branch? id).getD ⟨n, []⟩ ∨
      (if deep then (d.tree.branch? id).getD ⟨n, []⟩ else ⟨n, []⟩ : Branch) = ⟨n, []⟩ := by
    cases deep
    · exact .inr rfl
    · exact .inl rfl
  refine .of_change (.clone hn hbranch) fun hd => Tree.Extends.under ?_
  rcases hbranch with hb | hb
  · rw [hb]
    exact (Draft.cloned _ hd (Draft.getD_branch hd.toWellFormed hn).2).2.1
  · rw [hb]
    exact (Draft.cloned _ hd (Draft.innerPlain_leaf n)).2.1

theorem hands_create (document : Option NodeId) (content : Content) :
    Leads (Hands none) e d (create document content) := by
  refine leads_create rfl (fun _ => ?_) fun _ _ => ?_
  · refine ⟨fun hd => hd.addAt (Draft.node?_nextId hd) _, fun hd _ _ hx => .inl ?_⟩
    exact (Tree.extends_addAt (Draft.node?_nextId hd) _).under hx
  · refine ⟨fun hd => (hd.addAt (Draft.node?_nextId hd) _).setDocument _ _,
      fun hd _ _ hx => .inl ?_⟩
    have hid := Draft.node?_nextId hd
    exact ((Draft.grown_addAt hd hid _).setDocument hd.toWellFormed
      (Draft.newRoot_addAt hid _) document).1.under hx

theorem hands_update (content : Content) : Leads (Hands none) e d (update id content) := by
  refine .check_bind fun _ h => .write ?_
  simp only [bind_eq_ok, Tree.require_eq_ok, ite_throw_eq_ok] at h
  obtain ⟨_, hw, n, hn, hk⟩ := h
  refine .of_change (.recast hn (by simpa using hk) (Editor.writes_of_mayWrite hw))
    fun hd x _ hx => ?_
  exact (Draft.parent?_of_at (Draft.rewritten_setContent hd.keyed id content).node?
    (fun _ => rfl) x).trans hx

theorem hands_link (component : NodeId) : Leads (Hands none) e d (link id component) := by
  refine .check_bind fun _ _ => .write ⟨fun hd => hd.link id component, fun hd x _ hx => .inl ?_⟩
  exact (Draft.parent?_of_at (Draft.node?_link hd.keyed id component) (fun _ => rfl) x).trans hx

theorem hands_unlink : Leads (Hands none) e d (unlink id) := by
  refine .check_bind fun _ _ => .tree_bind (.bind (.write ?_) fun _ _ _ _ => .pure _)
  refine ⟨fun hd => hd.unlink id, fun hd x _ hx => .inl ?_⟩
  exact (Draft.parent?_of_at (Draft.node?_unlink hd.keyed id) (fun _ => rfl) x).trans hx

/-- Only the copy gets another parent when a node is shared, and it had none before. -/
theorem hands_share : Leads (Hands none) e d (share id) := by
  refine .check_bind fun n h => .read_bind (.tree_bind (.writeNode ?_))
  simp only [bind_eq_ok, Tree.require_eq_ok, ite_throw_bind_eq_ok] at h
  obtain ⟨_, hw, hsynced, m, hm, hpage, hret⟩ := h
  obtain rfl := Except.ok.inj hret
  have hchange : d.Change e
      (shareBranch e.principal.name? ((d.tree.branch? id).getD ⟨m, []⟩) d).2 :=
    .share hm (by simpa using hpage) (by simpa using hsynced) (Editor.writes_of_mayWrite hw)
  refine .of_change hchange fun hd x z hx => ?_
  obtain ⟨hnode, hplain⟩ := Draft.getD_branch hd.toWellFormed hm
  have hbpage : ((d.tree.branch? id).getD ⟨m, []⟩).node.kind.isPage = false := by
    rw [hnode]
    simpa using hpage
  obtain ⟨r, c, hsound, hext, hr, hc, -, hroot, -, hout⟩ :=
    Draft.sharing_ready e.principal.name? hd hplain hbpage
  have hshared := Draft.sound_shared e.principal.name? hd hplain hbpage
  rw [Draft.shareBranch_eq]
  refine (Draft.parent?_of_at (Draft.node?_link (hshared.setDocument _ _).keyed _ _)
    (fun _ => rfl) x).trans ?_
  change Tree.Under _ x z
  rw [Draft.under_setDocument hshared.toWellFormed, Draft.shared, Draft.under_attached
    (Draft.rewritten_attach hsound.toWellFormed hc hroot (fun he => hout (he ▸ .refl)) hr)
    hsound.keyed hc, if_neg]
  · exact hext.under hx
  · rintro rfl
    have hx' := hext.under hx
    rw [Tree.Under, Tree.parent?_eq hc, hroot] at hx'
    exact Option.some_ne_none _ hx'.symm

/-- Copying adds copies of a branch. -/
theorem exists_of_run_clone {deep : Bool} (hd : d.tree.Sound)
    (h : (clone id deep).run e d = (.ok c, d')) :
    ∃ b : Branch, b.InnerPlain ∧ d.cloneBranch e.principal.name? b = (c, d') := by
  obtain ⟨n, d₁, hcheck, h⟩ := run_bind_eq_ok.mp h
  obtain ⟨hn, rfl⟩ := run_check_eq_ok.mp hcheck
  obtain ⟨hc, hd'⟩ := Prod.mk.inj h
  refine ⟨_, ?_, Prod.ext (Except.ok.inj hc) hd'⟩
  cases deep
  · exact Draft.innerPlain_leaf n
  · exact (Draft.getD_branch hd.toWellFormed (Tree.require_eq_ok.mp hn)).2

/-- The copy is a root when it is adopted, so that nobody loses it. -/
theorem hands_importNode (hd : d.tree.Sound) (page : NodeId) (deep : Bool) :
    Leads (Hands none) e d (importNode page id deep) := by
  refine .check_bind fun _ _ => .bind (hands_clone deep) fun copied d' hrun hh => ?_
  obtain ⟨b, hplain, hclone⟩ := exists_of_run_clone hd hrun
  obtain ⟨-, -, hnew⟩ := Draft.cloned e.principal.name? hd hplain
  obtain ⟨m, hm, hroot, -⟩ := hnew.exists_node
  rw [hclone] at hm
  have hcopied : d'.tree.parent? copied = none := (Tree.parent?_eq hm).trans hroot
  refine .check_bind fun _ _ => .bind (.write ?_) fun _ _ _ _ => .pure copied
  rw [Draft.detach_of_root hcopied]
  refine ⟨fun hd' => hd'.setDocument copied (some page), fun hd' x z hx => .inl ?_⟩
  rwa [Draft.under_setDocument hd'.toWellFormed]

end Edit

/-! ### Single operations -/

/-- The ways in which a child can leave its parent. -/
inductive Departure
  /-- It is taken out. -/
  | removed
  /-- It comes to stand below another node. -/
  | moved (parent : NodeId)
  /-- It moves into the document of a page, without a parent. -/
  | adopted (page : NodeId)
  /-- It is a text that was joined with the one before it. -/
  | joined

/-- The principal may write a node of a tree. -/
def Editor.CanWrite (e : Editor) (t : Tree) (id : NodeId) : Prop :=
  ∃ n, t.node? id = some n ∧ e.access.canWrite e.principal n = true

/-- What must have been writable for a child `c` to leave a node `n` on the way from one tree to
another: the node itself, or else the node that receives the child. -/
def Departure.Permitted (e : Editor) (t t' : Tree) (n : Node) (c : NodeId) : Departure → Prop
  | removed => e.access.canWrite e.principal n = true
  | moved parent =>
    e.access.canWrite e.principal n = true ∨ t'.Under c parent ∧ e.CanWrite t parent
  | adopted page =>
    t'.parent? c = none ∧ t'.document? c = some page ∧ e.CanWrite t page
  | joined => n.WritableStretched e

namespace Edit

open ContentTree.Draft (Hands children_detach children_discard children_setDocument under_detach)

/-- The single operations, and the way in which each of them can take a child from its parent. -/
inductive Single : Departure → {α : Type} → Edit α → Prop
  | append (parent child : NodeId) : Single (.moved parent) (append parent child)
  | insertBefore (parent child : NodeId) (reference : Option NodeId) :
    Single (.moved parent) (insertBefore parent child reference)
  | replace (parent child old : NodeId) : Single (.moved parent) (replace parent child old)
  | remove (parent child : NodeId) : Single .removed (remove parent child)
  | clone (id : NodeId) (deep : Bool) : Single .removed (clone id deep)
  | normalize (id : NodeId) : Single .joined (normalize id)
  | create (document : Option NodeId) (content : Content) :
    Single .removed (create document content)
  | adopt (page id : NodeId) : Single (.adopted page) (adopt page id)
  | importNode (page id : NodeId) (deep : Bool) : Single .removed (importNode page id deep)
  | trash (id : NodeId) : Single .removed (trash id)
  | update (id : NodeId) (content : Content) : Single .removed (update id content)
  | link (mirror component : NodeId) : Single .removed (link mirror component)
  | unlink (mirror : NodeId) : Single .removed (unlink mirror)
  | share (id : NodeId) : Single .removed (share id)

variable {α : Type} {e : Editor} {d d' : Draft} {z c p id : NodeId} {n : Node} {a : α}
  {way : Departure} {x : Edit α}

theorem Single.composed (hx : x.Single way) : x.Composed := by
  cases hx with
  | append p c => exact .append p c
  | insertBefore p c reference => exact .insertBefore p c reference
  | replace p c old => exact .replace p c old
  | remove p c => exact .remove p c
  | clone id deep => exact .clone id deep
  | normalize id => exact .normalize id
  | create document content => exact .create document content
  | adopt page id => exact .adopt page id
  | importNode page id deep => exact .importNode page id deep
  | trash id => exact .trash id
  | update id content => exact .update id content
  | link mirror component => exact .link mirror component
  | unlink mirror => exact .unlink mirror
  | share id => exact .share id

/-- Where nothing is handed over, no child leaves. -/
theorem mem_children_of_hands (h : Leads (Hands none) e d x) (hd : d.tree.Sound)
    (hrun : x.run e d = (.ok a, d')) (hc : c ∈ d.tree.children z) : c ∈ d'.tree.children z := by
  rw [Leads, hrun] at h
  rw [(h.sound hd).mem_children_iff]
  rcases h.under hd (hd.mem_children_iff.mp hc) with hu | ⟨_, hr, -⟩
  · exact hu
  · exact nomatch hr

theorem canWrite_of_mayWrite (h : e.mayWrite d.tree z = .ok ()) (hn : d.tree.node? z = some n) :
    e.access.canWrite e.principal n = true := by
  obtain ⟨m, hm, hw⟩ := Editor.mayWrite_eq_ok.mp h
  rwa [Option.some.inj (hn.symm.trans hm)]

theorem eq_of_not_mem_erase {xs : List NodeId} (hc : c ∈ xs) (hlost : c ∉ xs.erase id) :
    c = id := by
  by_contra hne
  exact hlost ((List.mem_erase_of_ne hne).mpr hc)

section Permitted

variable (hd : d.tree.Sound) (hn : d.tree.node? z = some n) (hc : c ∈ d.tree.children z)
include hd hc

/-- A node that is put into place is handed over to its new parent, and to nobody else. -/
theorem permitted_insert {reference : Option NodeId} {u : Unit}
    (hrun : (insert p id reference).run e d = (.ok u, d')) (hlost : c ∉ d'.tree.children z) :
    (Departure.moved p).Permitted e d.tree d'.tree n c := by
  have hh : Leads (Hands (some p)) e d (insert p id reference) := hands_insert p id reference
  rw [Leads, hrun] at hh
  rcases hh.under hd (hd.mem_children_iff.mp hc) with hu | ⟨r, hr, hu⟩
  · exact absurd ((hh.sound hd).mem_children_iff.mpr hu) hlost
  · obtain rfl := Option.some.inj hr
    exact .inr ⟨hu, Editor.mayWrite_eq_ok.mp (mayWrite_of_insert hrun)⟩

include hn in
/-- The parent is asked for the node that is replaced, but not for the one that comes. -/
theorem permitted_replace {old r : NodeId} (hrun : (replace p id old).run e d = (.ok r, d'))
    (hlost : c ∉ d'.tree.children z) :
    (Departure.moved p).Permitted e d.tree d'.tree n c := by
  obtain ⟨_, d₁, hcheck, h⟩ := run_bind_eq_ok.mp hrun
  obtain ⟨hexamine, rfl⟩ := run_check_eq_ok.mp hcheck
  rw [bind_unit_eq_ok, Tree.requireChild_eq_ok] at hexamine
  obtain ⟨hmay, hold⟩ := hexamine
  by_cases hz : z = p
  · exact .inl (canWrite_of_mayWrite hmay (hz ▸ hn))
  split at h
  · obtain ⟨_, d₁, hinsert, h⟩ := run_bind_eq_ok.mp h
    obtain rfl := (Prod.mk.inj h).2
    have hd₁ : d₁.tree.Sound := by
      have hh : Leads (Hands (some p)) e d (insert p id (some old)) := hands_insert p id _
      rw [Leads, hinsert] at hh
      exact hh.sound hd
    have hne : c ≠ old := by
      rintro rfl
      exact hz ((hd.mem_children_iff.mp hc).eq hold)
    rw [children_detach hd₁.toWellFormed, List.mem_erase_of_ne hne] at hlost
    rcases permitted_insert (n := n) hd hc hinsert hlost with hw | ⟨hu, hw⟩
    · exact .inl hw
    · exact .inr ⟨(under_detach hd₁.toWellFormed).mpr ⟨hne, hu⟩, hw⟩
  · obtain rfl := (Prod.mk.inj h).2
    exact absurd hc hlost

include hn in
theorem permitted_remove {r : NodeId} (hrun : (remove p id).run e d = (.ok r, d'))
    (hlost : c ∉ d'.tree.children z) : e.access.canWrite e.principal n = true := by
  obtain ⟨_, d₁, hcheck, h⟩ := run_bind_eq_ok.mp hrun
  obtain ⟨hexamine, rfl⟩ := run_check_eq_ok.mp hcheck
  obtain rfl := (Prod.mk.inj h).2
  rw [bind_unit_eq_ok, bind_unit_eq_ok, Tree.requireChild_eq_ok] at hexamine
  obtain ⟨hmay, hchild, -⟩ := hexamine
  rw [children_detach hd.toWellFormed] at hlost
  obtain rfl := eq_of_not_mem_erase hc hlost
  exact canWrite_of_mayWrite hmay (hchild.eq (hd.mem_children_iff.mp hc) ▸ hn)

include hn in
theorem permitted_trash {u : Unit} (hrun : (trash id).run e d = (.ok u, d'))
    (hlost : c ∉ d'.tree.children z) : e.access.canWrite e.principal n = true := by
  obtain ⟨_, d₁, hcheck, h⟩ := run_bind_eq_ok.mp hrun
  obtain ⟨hexamine, rfl⟩ := run_check_eq_ok.mp hcheck
  obtain rfl := (Prod.mk.inj h).2
  rw [children_discard hd.toWellFormed] at hlost
  obtain rfl := eq_of_not_mem_erase hc hlost
  have hparent : d.tree.parent? c = some z := hd.mem_children_iff.mp hc
  simp only [bind_eq_ok, ite_throw_bind_eq_ok, hparent] at hexamine
  obtain ⟨_, -, -, _, hmay, -⟩ := hexamine
  exact canWrite_of_mayWrite hmay hn

theorem permitted_adopt {page r : NodeId} (hrun : (adopt page id).run e d = (.ok r, d'))
    (hlost : c ∉ d'.tree.children z) :
    (Departure.adopted page).Permitted e d.tree d'.tree n c := by
  obtain ⟨_, d₁, hcheck, h⟩ := run_bind_eq_ok.mp hrun
  obtain ⟨hexamine, rfl⟩ := run_check_eq_ok.mp hcheck
  obtain rfl := (Prod.mk.inj h).2
  simp only [bind_eq_ok, Tree.require_eq_ok, ite_throw_bind_eq_ok] at hexamine
  obtain ⟨_, -, _, hmay, m, hm, hpage, -⟩ := hexamine
  have hwf := hd.toWellFormed.detach id
  rw [children_setDocument hwf, children_detach hd.toWellFormed] at hlost
  obtain rfl := eq_of_not_mem_erase hc hlost
  obtain ⟨m', hm', hcontent, -⟩ := (Draft.relocated_detach hd.toWellFormed c).exists_node hm
  have hparent : (d.detach c).tree.parent? c = none := Draft.parent?_detach hd.toWellFormed
  refine ⟨?_, ?_, Editor.mayWrite_eq_ok.mp hmay⟩
  · exact ((Draft.rewritten_setDocument hwf.keyed c (some page)).parent?_eq
      (Draft.still_documented _ _ _) c).trans hparent
  · refine Draft.document?_setDocument_root hwf hm' ?_ (some page)
    rw [hcontent]
    simpa using hpage

end Permitted

/-- A single operation that succeeds takes children only where that is permitted. -/
theorem Single.permitted (hx : x.Single way) (hd : d.tree.Sound)
    (hrun : x.run e d = (.ok a, d')) (hn : d.tree.node? z = some n) (hc : c ∈ d.tree.children z)
    (hlost : c ∉ d'.tree.children z) : way.Permitted e d.tree d'.tree n c := by
  have hkept : Leads (Hands none) e d x → way.Permitted e d.tree d'.tree n c := fun h =>
    absurd (mem_children_of_hands h hd hrun hc) hlost
  cases hx with
  | append p c =>
    obtain ⟨_, d₁, hinsert, h⟩ := run_bind_eq_ok.mp hrun
    obtain rfl := (Prod.mk.inj h).2
    exact permitted_insert hd hc hinsert hlost
  | insertBefore p c reference =>
    obtain ⟨_, d₁, hinsert, h⟩ := run_bind_eq_ok.mp hrun
    obtain rfl := (Prod.mk.inj h).2
    exact permitted_insert hd hc hinsert hlost
  | replace p c old => exact permitted_replace hd hn hc hrun hlost
  | remove p c => exact permitted_remove hd hn hc hrun hlost
  | normalize id =>
    have hintact := intact_normalize (e := e) hd hn id
    rw [hrun] at hintact
    rcases hintact with hwritable | ⟨m, hm, hchildren, -⟩
    · exact hwritable
    · rw [Tree.children_eq hm, hchildren, ← Tree.children_eq hn] at hlost
      exact absurd hc hlost
  | adopt page id => exact permitted_adopt hd hc hrun hlost
  | trash id => exact permitted_trash hd hn hc hrun hlost
  | clone id deep => exact hkept (hands_clone deep)
  | create document content => exact hkept (hands_create document content)
  | importNode page id deep => exact hkept (hands_importNode hd page deep)
  | update id content => exact hkept (hands_update content)
  | link mirror component => exact hkept (hands_link component)
  | unlink mirror => exact hkept hands_unlink
  | share id => exact hkept hands_share

end Edit

end ContentTree
