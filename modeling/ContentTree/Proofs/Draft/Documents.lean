import ContentTree.Proofs.Draft.Change
import ContentTree.Proofs.Draft.Load

/-!
# Nodes belong to the document of their parent

The document is recorded at every node, although it could be read off the page at the root. Every
write that moves a branch has to bring the whole of it into the document of the new parent. Between
the two steps the branch is at odds with its parent, but with nothing else.

## Main definitions

* `Tree.Coherent`: nodes belong to the document of their parent, and documents are pages.
* `Tree.CoherentBut`: the same, except at and below one node.

## Main results

* `CoherentBut.setDocument`: a branch enters the document of its parent.
* `Change.coherent`: changes keep a tree coherent.
* `Coherent.load`: loading keeps a tree coherent where it succeeds.
-/

namespace ContentTree

open Relation

namespace Tree

variable {t t' : Tree} {g : Node → Node} {c p root x : NodeId} {n : Node} {document : Option NodeId}

/-- Every recorded document is a page of the tree. -/
def RecordsPages (t : Tree) : Prop :=
  ∀ ⦃id n page⦄, t.node? id = some n → n.document = some page →
    ∃ m, t.node? page = some m ∧ m.kind.isPage = true

/-- Nodes belong to the document of their parent, and recorded documents are pages. -/
structure Coherent (t : Tree) : Prop where
  document_eq : ∀ {c p}, t.Under c p → t.document? c = t.document? p
  pages : t.RecordsPages

/-- A tree is coherent except that one branch may be at odds with its parent. -/
structure CoherentBut (t : Tree) (root : NodeId) : Prop where
  document_eq : ∀ {c p}, t.Under c p → ¬ t.Within c root → t.document? c = t.document? p
  pages : t.RecordsPages

theorem Coherent.but (h : t.Coherent) (root : NodeId) : t.CoherentBut root :=
  ⟨fun hc _ => h.document_eq hc, h.pages⟩

/-- The document of a node is a page. -/
theorem RecordsPages.exists_page (h : t.RecordsPages) (ht : t.WellFormed) {page : NodeId}
    (hx : t.document? x = some page) : ∃ m, t.node? page = some m ∧ m.kind.isPage = true := by
  obtain ⟨n, hn, hpage⟩ := Option.bind_eq_some_iff.mp hx
  unfold Node.owningPage at hpage
  split at hpage
  · next hk =>
    obtain rfl := Option.some.inj hpage
    obtain rfl := ht.keyed hn
    exact ⟨n, hn, hk⟩
  · exact h hn hpage

/-- Whoever stands at or below a node belongs to the same document. -/
theorem Coherent.document_within (h : t.Coherent) (hw : t.Within c p) :
    t.document? c = t.document? p := by
  induction hw with
  | refl => rfl
  | tail _ hstep ih => exact ih.trans (h.document_eq hstep)

theorem Coherent.of_nodes_eq (h : t.Coherent) (hn : t'.nodes = t.nodes) : t'.Coherent := by
  obtain ⟨nodes, sharing, lastId, shadow⟩ := t
  obtain ⟨nodes', sharing', lastId', shadow'⟩ := t'
  obtain rfl : nodes' = nodes := hn
  exact ⟨h.document_eq, h.pages⟩

/-- A write that leaves identifiers, documents and pages as they are. -/
def KeepsDocuments (t : Tree) (g : Node → Node) : Prop :=
  ∀ ⦃id n⦄, t.node? id = some n →
    (g n).id = n.id ∧ (g n).document = n.document ∧ (g n).kind.isPage = n.kind.isPage

section Rewritten

variable (hg : ∀ id, t'.node? id = (t.node? id).map g) (hkeep : KeepsDocuments t g)
include hg hkeep

theorem document?_of_map (x : NodeId) : t'.document? x = t.document? x := by
  rw [document?, document?, hg]
  cases hx : t.node? x with
  | none => rfl
  | some n =>
    obtain ⟨hid, hdoc, hpage⟩ := hkeep hx
    simp only [Option.map_some, Option.bind_some, Node.owningPage, hid, hdoc, hpage]

theorem RecordsPages.of_map (h : t.RecordsPages) : t'.RecordsPages := by
  intro id n page hn hpage
  rw [hg] at hn
  obtain ⟨m, hm, rfl⟩ := Option.map_eq_some_iff.mp hn
  obtain ⟨q, hq, hk⟩ := h hm ((hkeep hm).2.1 ▸ hpage)
  exact ⟨g q, by rw [hg, hq, Option.map_some], (hkeep hq).2.2.trans hk⟩

/-- Where documents stay, a tree stays coherent as long as every node has come below a node of its
own document. -/
theorem Coherent.of_map (h : t.Coherent)
    (hu : ∀ {c p}, t'.Under c p → t.document? c = t.document? p) : t'.Coherent where
  document_eq hc := by
    rw [document?_of_map hg hkeep, document?_of_map hg hkeep]
    exact hu hc
  pages := h.pages.of_map hg hkeep

theorem CoherentBut.of_map (h : t.CoherentBut root)
    (hu : ∀ {c p}, t'.Under c p → ¬ t'.Within c root → t.document? c = t.document? p) :
    t'.CoherentBut root where
  document_eq hc hw := by
    rw [document?_of_map hg hkeep, document?_of_map hg hkeep]
    exact hu hc hw
  pages := h.pages.of_map hg hkeep

end Rewritten

end Tree

namespace Draft

open ContentTree.Tree (Rewritten Extends Coherent CoherentBut KeepsDocuments)

variable {t : Tree} {d d' : Draft} {c p root id : NodeId} {n : Node} {document : Option NodeId}
  {owner : Option String} {b : Branch} {kind : Kind}

/-- A branch that is at odds with its parent enters the document of the parent. -/
theorem coherent_setDocument (h : d.tree.WellFormed) (hd : d.tree.CoherentBut root)
    (hn : d.tree.node? root = some n) (hroot : n.kind.isPage = true → document = some root)
    (hparent : ∀ p, d.tree.Under root p → d.tree.document? p = document)
    (hpages : ∀ page, document = some page →
      ∃ m, d.tree.node? page = some m ∧ m.kind.isPage = true) :
    (d.setDocument root document).tree.Coherent := by
  have hg := rewritten_setDocument h.keyed root document
  have hs := still_documented d.tree (d.tree.branchIds root) document
  have hout : ∀ {x}, ¬ d.tree.Within x root →
      (d.setDocument root document).tree.document? x = d.tree.document? x := by
    intro x hx
    rw [Tree.document?, Tree.document?, hg.node?]
    cases hxn : d.tree.node? x with
    | none => rfl
    | some m =>
      obtain rfl := h.keyed hxn
      have hmem : m.id ∉ d.tree.branchIds root := by rwa [h.mem_branchIds_iff hxn]
      simp [documented, hmem]
  have hin : ∀ {x m}, d.tree.node? x = some m → m.kind.isPage = false → d.tree.Within x root →
      (d.setDocument root document).tree.document? x = document := by
    intro x m hxm hpage hx
    obtain rfl := h.keyed hxm
    have hmem : m.id ∈ d.tree.branchIds root := by rwa [h.mem_branchIds_iff hxm]
    rw [Tree.document?, hg.node?_of_some hxm]
    simp [documented, hmem, hpage, Node.owningPage]
  refine ⟨fun {x y} hxy => ?_, fun x m page hm hpage => ?_⟩
  · rw [hg.under_eq hs] at hxy
    obtain ⟨k, hk, -⟩ := hxy.exists_node
    obtain ⟨q, hq⟩ := h.exists_parent hxy
    -- An edge lies in the branch, or outside of it, or it is the one above the root.
    by_cases hx : d.tree.Within x root
    · rw [hin hk (h.not_page_of_under hxy hk) hx]
      rcases hx.eq_or_below with rfl | hb
      · -- The root of the branch meets the document of its parent.
        have hy : ¬ d.tree.Within y x := fun hy => h.acyclic y (TransGen.tail' hy hxy)
        rw [hout hy, hparent y hxy]
      · have hy := hb.of_under hxy
        by_cases hqpage : q.kind.isPage = true
        · -- A page inside the branch can only be its root.
          have hyroot : y = root :=
            hy.eq_of_root (by rw [Tree.parent?_eq hq, h.page_root hq hqpage])
          obtain rfl := hyroot
          obtain rfl := Option.some.inj (hn.symm.trans hq)
          have hpage' : (documented (d.tree.branchIds y) document n).kind.isPage = true :=
            (Node.place_eq_iff.mp (place_documented _ _ n)).2.2.2.2.trans hqpage
          have hid' : (documented (d.tree.branchIds y) document n).id = y :=
            (Node.place_eq_iff.mp (place_documented _ _ n)).1.trans (h.keyed hn)
          rw [Tree.document?_eq (hg.node?_of_some hn), Node.owningPage, if_pos hpage', hid',
            hroot hqpage]
        · rw [hin hq (by simpa using hqpage) hy]
    · have hy : ¬ d.tree.Within y root := fun hy => hx (hy.head hxy)
      rw [hout hx, hout hy]
      exact hd.document_eq hxy hx
  · obtain ⟨k, hk, rfl⟩ := hg.exists_of_some hm
    -- What is recorded is the new document, or what was recorded before.
    have hkeep : ∃ m, d.tree.node? page = some m ∧ m.kind.isPage = true := by
      unfold documented at hpage
      split at hpage
      · exact hpages page hpage
      · exact hd.pages hk hpage
    obtain ⟨q, hq, hqpage⟩ := hkeep
    exact ⟨_, hg.node?_of_some hq,
      (Node.place_eq_iff.mp (place_documented _ _ q)).2.2.2.2.trans hqpage⟩

/-! ### Single writes -/

theorem coherent_detach (h : d.tree.WellFormed) (hc : d.tree.Coherent) (c : NodeId) :
    (d.detach c).tree.Coherent := by
  cases hparent : d.tree.parent? c with
  | none => rwa [detach_of_root hparent]
  | some p =>
    obtain ⟨n, hn, hp⟩ := Tree.Under.exists_node hparent
    have hg := rewritten_detach h hn hp
    exact hc.of_map hg.node? (fun _ _ _ => ⟨rfl, rfl, rfl⟩) fun hxy =>
      hc.document_eq ((under_detach h).mp hxy).2

/-- A node that leaves its place can enter any document, or none. -/
theorem coherent_detach_setDocument (h : d.tree.WellFormed) (hc : d.tree.Coherent)
    (hn : d.tree.node? c = some n) (hpage : n.kind.isPage = false)
    (hpages : ∀ page, document = some page →
      ∃ m, d.tree.node? page = some m ∧ m.kind.isPage = true) :
    ((d.detach c).setDocument c document).tree.Coherent := by
  have hkeep := relocated_detach h c
  obtain ⟨m, hm, hcontent, -⟩ := hkeep.exists_node hn
  refine coherent_setDocument (h.detach c) ((coherent_detach h hc c).but c) hm ?_ ?_ ?_
  · intro hmpage
    rw [hcontent, hpage] at hmpage
    exact absurd hmpage Bool.false_ne_true
  · exact fun p hp => (((under_detach h).mp hp).1 rfl).elim
  · intro page hd
    obtain ⟨q, hq, hqpage⟩ := hpages page hd
    obtain ⟨q', hq', hcontent', -⟩ := hkeep.exists_node hq
    exact ⟨q', hq', by rw [hcontent', hqpage]⟩

/-- After a node was put in, it may be at odds with its new parent. -/
theorem Movable.coherentBut_settle (hm : Movable d.tree p c) (h : d.tree.WellFormed)
    (hc : d.tree.Coherent) (reference : Option NodeId) :
    (d.settle p c reference).tree.CoherentBut c := by
  obtain ⟨k, hg⟩ := hm.rewritten_settle h reference
  refine ((coherent_detach h hc c).but c).of_map hg.node? (fun _ _ _ => ⟨rfl, rfl, rfl⟩) ?_
  intro x y hxy hx
  rw [hm.under_settle h reference] at hxy
  split at hxy
  · next hxc => exact absurd (hxc ▸ .refl) hx
  · rw [document?_detach h, document?_detach h]
    exact hc.document_eq hxy

theorem coherent_place (hm : Movable d.tree p c) (h : d.tree.WellFormed) (hc : d.tree.Coherent)
    (reference : Option NodeId) : (d.place p c reference).tree.Coherent := by
  have hbut := hm.coherentBut_settle h hc reference
  have hunder : ∀ q, (d.settle p c reference).tree.Under c q → q = p := by
    intro q hq
    rwa [hm.under_settle h reference, if_pos rfl] at hq
  rw [place_eq]
  split
  · next heq =>
    refine ⟨fun {x y} hxy => ?_, hbut.pages⟩
    by_cases hx : x = c
    · subst hx
      rw [hunder y hxy, heq]
    · have hxy' := hxy
      rw [hm.under_settle h reference, if_neg hx] at hxy'
      rw [hm.document?_settle h, hm.document?_settle h]
      exact hc.document_eq hxy'
  · obtain ⟨n, hn, hpage⟩ := hm.exists_child
    obtain ⟨m, hm', hcontent, -⟩ := (hm.relocated_settle h reference).exists_node hn
    refine coherent_setDocument (hm.wellFormed_settle h reference) hbut hm' ?_ ?_ ?_
    · intro hmpage
      rw [hcontent, hpage] at hmpage
      exact absurd hmpage Bool.false_ne_true
    · exact fun q hq => by rw [hunder q hq]
    · exact fun page hd => hbut.pages.exists_page (hm.wellFormed_settle h reference) hd

theorem coherent_modify (h : d.tree.Keyed) (hc : d.tree.Coherent) {f : Node → Node}
    (hf : ∀ n, d.tree.node? id = some n →
      (f n).place = n.place ∧ (f n).document = n.document)
    (hid : ∀ n, (f n).id = n.id) : (d.modify id f).tree.Coherent := by
  have hg : Rewritten (at_ id f) d.tree (d.modify id f).tree := rewritten_modify h hid
  have hkeep : ∀ ⦃x n⦄, d.tree.node? x = some n →
      (at_ id f n).place = n.place ∧ (at_ id f n).document = n.document := by
    intro x n hn
    unfold at_
    split
    · next hx => exact hf n (hx ▸ (h hn).symm ▸ hn)
    · exact ⟨rfl, rfl⟩
  refine hc.of_map hg.node? (fun x n hn => ?_) fun hxy => ?_
  · obtain ⟨hplace, hdoc⟩ := hkeep hn
    obtain ⟨h₁, -, -, -, h₂⟩ := Node.place_eq_iff.mp hplace
    exact ⟨h₁, hdoc, h₂⟩
  · rw [hg.under_eq fun _ _ hn => (hkeep hn).1] at hxy
    exact hc.document_eq hxy

theorem coherent_setContent (h : d.tree.Keyed) (hc : d.tree.Coherent) {content : Content}
    (hn : d.tree.node? id = some n) (hpage : content.kind.isPage = n.kind.isPage) :
    (d.setContent id content).tree.Coherent := by
  refine coherent_modify (f := recast content) h hc (fun m hm => ⟨?_, rfl⟩) fun _ => rfl
  obtain rfl := Option.some.inj (hn.symm.trans hm)
  exact Node.place_eq_iff.mpr ⟨rfl, rfl, rfl, rfl, (isPage_recast content n).trans hpage⟩

theorem coherent_bumpVersion (h : d.tree.Keyed) (hc : d.tree.Coherent) (page : NodeId) :
    (d.bumpVersion page).tree.Coherent := by
  refine coherent_modify (f := bumped) h hc (fun n _ => ⟨place_bumped n, ?_⟩) bumped_id
  unfold bumped
  split <;> rfl

theorem coherent_link (h : d.tree.Keyed) (hc : d.tree.Coherent) (mirror component : NodeId) :
    (d.link mirror component).tree.Coherent := by
  have hmodify : (d.modify mirror ({ · with component := some component })).tree.Coherent :=
    coherent_modify h hc (fun _ _ => ⟨rfl, rfl⟩) fun _ => rfl
  rw [tree_link]
  exact hmodify.of_nodes_eq rfl

theorem coherent_unlink (h : d.tree.Keyed) (hc : d.tree.Coherent) (mirror : NodeId) :
    (d.unlink mirror).tree.Coherent := by
  have hmodify : (d.modify mirror ({ · with component := none })).tree.Coherent :=
    coherent_modify h hc (fun _ _ => ⟨rfl, rfl⟩) fun _ => rfl
  rw [tree_unlink]
  exact hmodify.of_nodes_eq rfl

/-! ### New branches -/

/-- A tree that has grown by one branch is coherent besides that branch. -/
theorem Grown.coherentBut (h : Grown t d) (hr : NewRoot t d root kind) (ht : t.WellFormed)
    (hc : t.Coherent) : d.tree.CoherentBut root where
  document_eq := by
    intro x y hxy hx
    obtain ⟨n, hn, -⟩ := hxy.exists_node
    cases hold : t.node? x with
    | none => exact absurd (hr.within hn hold) hx
    | some m =>
      have hxy' := h.old.under_of hold hxy
      obtain ⟨q, hq⟩ := ht.exists_parent hxy'
      have hsame := hc.document_eq hxy'
      rwa [Tree.document?_eq hold, Tree.document?_eq hq, ← Tree.document?_eq (h.old hold),
        ← Tree.document?_eq (h.old hq)] at hsame
  pages := by
    intro x n page hn hpage
    cases hold : t.node? x with
    | none => exact absurd ((h.new_document hn hold).symm.trans hpage) (Option.some_ne_none _).symm
    | some m =>
      obtain rfl := Option.some.inj (hn.symm.trans (h.old hold))
      obtain ⟨q, hq, hqpage⟩ := hc.pages hold hpage
      exact ⟨q, h.old hq, hqpage⟩

/-- A new branch enters a document. -/
theorem Grown.coherent_setDocument (h : Grown t d) (hr : NewRoot t d root kind)
    (ht : t.WellFormed) (hc : t.Coherent) (hpage : kind.isPage = true → document = some root)
    (hpages : ∀ page, document = some page →
      ∃ m, d.tree.node? page = some m ∧ m.kind.isPage = true) :
    (d.setDocument root document).tree.Coherent := by
  obtain ⟨n, hn, hroot, hk⟩ := hr.exists_node
  refine Draft.coherent_setDocument h.sound.toWellFormed (h.coherentBut hr ht hc) hn
    (fun hp => hpage (hk.symm.trans hp)) (fun p hp => ?_) hpages
  rw [Tree.Under, Tree.parent?_eq hn, hroot] at hp
  exact absurd hp.symm (Option.some_ne_none _)

/-- A single new node has no parent to be at odds with. -/
theorem coherent_addAt (h : d.tree.Sound) (hc : d.tree.Coherent) (hid : d.tree.node? id = none)
    (content : Content) : (d.addAt id content).tree.Coherent := by
  have hgrown := grown_addAt h hid content
  have hbut := hgrown.coherentBut (newRoot_addAt hid content) h.toWellFormed hc
  refine ⟨fun {x y} hxy => ?_, hbut.pages⟩
  obtain ⟨n, hn, hp⟩ := hxy.exists_node
  have hx : x ≠ id := by
    rintro rfl
    rw [node?_addAt, if_pos rfl] at hn
    obtain rfl := Option.some.inj hn
    exact Option.some_ne_none _ hp.symm
  rw [node?_addAt, if_neg hx] at hn
  exact hbut.document_eq hxy (hgrown.old.not_within h.toWellFormed hn hid)

theorem coherent_cloneBranch (h : d.tree.Sound) (hc : d.tree.Coherent) (hb : b.InnerPlain)
    (hpages : ∀ page, b.node.kind.isPage = false → b.node.document = some page →
      ∃ m, d.tree.node? page = some m ∧ m.kind.isPage = true) :
    (d.cloneBranch owner b).2.tree.Coherent := by
  obtain ⟨hgrown, hnew⟩ := grown_copy owner b d h hb
  refine hgrown.coherent_setDocument hnew h.toWellFormed hc (fun hp => if_pos hp) fun page hd => ?_
  split at hd
  · next hp =>
    obtain rfl := Option.some.inj hd
    obtain ⟨n, hn, -, hk⟩ := hnew.exists_node
    exact ⟨n, hn, hk.trans hp⟩
  · next hp =>
    obtain ⟨m, hm, hk⟩ := hpages page (by simpa using hp) hd
    exact ⟨m, hgrown.old hm, hk⟩

theorem coherent_ensureShadow (h : d.tree.Sound) (hc : d.tree.Coherent) :
    d.ensureShadow.2.tree.Coherent := by
  unfold ensureShadow
  cases d.tree.shadow with
  | some s => exact hc
  | none => exact (coherent_addAt h hc (node?_nextId h) _).of_nodes_eq rfl

theorem coherent_shareBranch (h : d.tree.Sound) (hc : d.tree.Coherent) (hb : b.InnerPlain)
    (hpage : b.node.kind.isPage = false)
    (hpages : ∀ page, b.node.document = some page →
      ∃ m, d.tree.node? page = some m ∧ m.kind.isPage = true) :
    (Edit.shareBranch owner b d).2.tree.Coherent := by
  obtain ⟨hsound₁, hext₁, -⟩ := ensured h
  obtain ⟨m, n, hsound, hext, hm, hn, hmpage, hroot, hnpage, hout⟩ :=
    sharing_ready owner h hb hpage
  have hcloned : (d.ensureShadow.2.cloneBranch owner b).2.tree.Coherent := by
    refine coherent_cloneBranch hsound₁ (coherent_ensureShadow h hc) hb fun page _ hd => ?_
    obtain ⟨q, hq, hqpage⟩ := hpages page hd
    exact ⟨q, hext₁ hq, hqpage⟩
  have hsound' := sound_shared owner h hb hpage
  -- The copy has come below the shadow page, but not yet into its document.
  have hne : d.ensureShadow.1 ≠ (d.ensureShadow.2.cloneBranch owner b).1 := fun he =>
    hout (he ▸ .refl)
  have hg : Rewritten _ (d.ensureShadow.2.cloneBranch owner b).2.tree (shared owner b d).tree :=
    rewritten_attach hsound.toWellFormed hn hroot hne hm
  have hunder : ∀ {x y}, (shared owner b d).tree.Under x y ↔ _ :=
    under_attached hg hsound.keyed hn
  have hbut : (shared owner b d).tree.CoherentBut (d.ensureShadow.2.cloneBranch owner b).1 := by
    refine (hcloned.but _).of_map hg.node? (fun _ _ _ => ⟨rfl, rfl, rfl⟩) fun {x y} hxy hx => ?_
    rw [hunder] at hxy
    split at hxy
    · next hxc => exact absurd (hxc ▸ .refl) hx
    · exact hcloned.document_eq hxy
  have hm' := hg.node?_of_some hm
  rw [shareBranch_eq]
  refine coherent_link (hsound'.setDocument _ _).keyed
    (Draft.coherent_setDocument hsound'.toWellFormed hbut (hg.node?_of_some hn) ?_ ?_ ?_) _ _
  · exact fun hp => absurd (hnpage.symm.trans hp) Bool.false_ne_true
  · intro q hq
    rw [hunder, if_pos rfl] at hq
    rw [hq, hg.document? fun _ => rfl, Tree.document?_eq hm, Node.owningPage, if_pos hmpage,
      hsound.keyed hm]
  · rintro _ ⟨⟩
    exact ⟨_, hm', hmpage⟩

/-! ### Changes and loading -/

variable {e : Editor}

/-- Changes keep a tree coherent. -/
theorem Change.coherent (hch : Change e d d') (h : d.tree.Sound) (hc : d.tree.Coherent) :
    d'.tree.Coherent := by
  have hwf := h.toWellFormed
  cases hch with
  | place admitted => exact coherent_place (movable_of_admits hwf admitted) hwf hc _
  | detach child _ => exact coherent_detach hwf hc child
  | discard exists_node not_page _ =>
    exact coherent_detach_setDocument hwf hc exists_node not_page fun _ h => nomatch h
  | recast exists_node same_kind _ =>
    exact coherent_setContent hwf.keyed hc exists_node (Kind.isPage_eq_of_same same_kind)
  | clone exists_node branch =>
    rcases branch with rfl | rfl
    · obtain ⟨hnode, hplain⟩ := getD_branch hwf exists_node
      exact coherent_cloneBranch h hc hplain fun page _ hd =>
        hc.pages exists_node (hnode ▸ hd)
    · exact coherent_cloneBranch h hc (innerPlain_leaf _) fun page _ hd =>
        hc.pages exists_node hd
  | createPage _ => exact coherent_addAt h hc (node?_nextId h) _
  | create not_page exists_page =>
    have hid := node?_nextId h
    refine (grown_addAt h hid _).coherent_setDocument (newRoot_addAt hid _) hwf hc
      (fun hp => absurd (not_page.symm.trans hp) Bool.false_ne_true) fun page hd => ?_
    obtain ⟨⟨m, hm, hk⟩, -⟩ := exists_page page hd
    exact ⟨m, Tree.extends_addAt hid _ hm, hk⟩
  | adopt exists_page exists_node not_page _ =>
    refine coherent_detach_setDocument hwf hc exists_node not_page ?_
    rintro _ ⟨⟩
    exact exists_page
  | link _ _ _ _ _ _ _ => exact coherent_link hwf.keyed hc _ _
  | unlink mirror _ => exact coherent_unlink hwf.keyed hc mirror
  | share exists_node not_page _ _ =>
    obtain ⟨hnode, hplain⟩ := getD_branch hwf exists_node
    exact coherent_shareBranch h hc hplain (by rw [hnode, not_page]) fun page hd =>
      hc.pages exists_node (hnode ▸ hd)

theorem Changes.coherent (hch : Changes e d d') (h : d.tree.Sound) (hc : d.tree.Coherent) :
    d'.tree.Coherent := by
  induction hch with
  | refl => exact hc
  | tail hsteps hstep ih => exact hstep.coherent (Changes.sound hsteps h) ih

end Draft

namespace Loading

open Draft (Grown NewRoot)

variable {t : Tree} {d d' : Draft}

theorem Links.coherent (h : Links t d d') (hd : d.tree.Sound) (hc : d.tree.Coherent) :
    d'.tree.Coherent := by
  induction h with
  | refl => exact hc
  | tail hsteps hstep ih =>
    obtain ⟨m, c, -, -, rfl⟩ := hstep
    exact Draft.coherent_link (Links.sound hsteps hd).keyed ih m c

theorem coherent_enclose {content : Content} {root : NodeId} (hd : Grown t d)
    (hroot : NewRoot t d root content.kind) (ht : t.WellFormed) (hc : t.Coherent) :
    (enclose content root d).tree.Coherent := by
  obtain ⟨n, hn, hnroot, hk⟩ := hroot.exists_node
  rw [enclose]
  split
  · next name version shadow hkind =>
    have hbut := hd.coherentBut hroot ht hc
    have hpages : ∀ page, some root = some page →
        ∃ m, d.tree.node? page = some m ∧ m.kind.isPage = true := by
      rintro _ ⟨⟩
      exact ⟨n, hn, by rw [hk, hkind]; rfl⟩
    have hparent : ∀ p, d.tree.Under root p → d.tree.document? p = some root := by
      intro p hp
      rw [Tree.Under, Tree.parent?_eq hn, hnroot] at hp
      exact absurd hp.symm (Option.some_ne_none _)
    -- The entry for the shadow page does not matter here.
    cases shadow with
    | false =>
      exact Draft.coherent_setDocument hd.sound.toWellFormed hbut hn (fun _ => rfl) hparent hpages
    | true =>
      exact Draft.coherent_setDocument (hd.sound.toWellFormed.of_nodes_eq rfl)
        ⟨hbut.document_eq, hbut.pages⟩ hn (fun _ => rfl) hparent hpages
  · next hkind =>
    refine hd.coherent_setDocument hroot ht hc (fun hp => ?_) fun _ h =>
      absurd h.symm (Option.some_ne_none _)
    cases hc : content.kind <;> simp_all [Kind.isPage]

end Loading

/-- Loading keeps a tree coherent where it succeeds. -/
theorem Tree.Coherent.load {t : Tree} (hc : t.Coherent) (h : t.Sound) {s : Snapshot} {id : NodeId}
    (hs : (t.load s).1 = .ok id) : (t.load s).2.Coherent := by
  rcases Loading.snapshot_cases (d := Draft.start t) h s with
    ⟨⟨e, he⟩, -⟩ | ⟨d', root, hd, hroot, hlinks⟩
  · have hload : (t.load s).1 = .error e := he
    rw [hload] at hs
    exact nomatch hs
  · exact hlinks.coherent (Loading.sound_enclose hd hroot)
      (Loading.coherent_enclose hd hroot h.toWellFormed hc)

end ContentTree
