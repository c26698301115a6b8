import ContentTree.Proofs.Tree.Branch

/-!
# Writes that move nothing

A write that leaves every node where it stands keeps a tree well-formed, whatever else it changes:
contents, versions, documents and components.

## Main definitions

* `Node.place`: where a node stands.
* `Rewritten.Still`: a write moves no node.

## Main results

* `WellFormed.of_still`, `Sound.of_still`: a tree stays well-formed, and sound.
* `Draft.rewritten_setDocument`: what becomes of a node when a branch changes its document.
-/

namespace ContentTree

open Relation

/-- Where a node stands, and whether it can stand below another. -/
def Node.place (n : Node) : NodeId × Option NodeId × List NodeId × Nat × Bool :=
  (n.id, n.parent, n.children, n.position, n.kind.isPage)

theorem Node.place_eq_iff {n m : Node} : n.place = m.place ↔
    n.id = m.id ∧ n.parent = m.parent ∧ n.children = m.children ∧ n.position = m.position ∧
      n.kind.isPage = m.kind.isPage := by
  simp [Node.place]

namespace Tree

variable {t t' : Tree} {g : Node → Node} {id c p : NodeId} {n m : Node}

/-! ### Writes that move nothing -/

/-- A write that moves no node of the tree. -/
def Rewritten.Still (t : Tree) (g : Node → Node) : Prop :=
  ∀ ⦃id n⦄, t.node? id = some n → (g n).place = n.place

namespace Rewritten

variable (hg : Rewritten g t t') (hs : Still t g)
include hg hs

theorem parent?_eq (id : NodeId) : t'.parent? id = t.parent? id := by
  rw [Tree.parent?, Tree.parent?, hg.node?]
  cases hn : t.node? id with
  | none => rfl
  | some n => exact (Node.place_eq_iff.mp (hs hn)).2.1

theorem children_eq (id : NodeId) : t'.children id = t.children id := by
  rw [Tree.children, Tree.children, hg.node?]
  cases hn : t.node? id with
  | none => rfl
  | some n => exact (Node.place_eq_iff.mp (hs hn)).2.2.1

theorem under_eq : t'.Under = t.Under := by
  funext c p
  rw [Under, Under, hg.parent?_eq hs]

theorem below_eq : t'.Below = t.Below := by
  rw [Below, Below, hg.under_eq hs]

theorem within_eq : t'.Within = t.Within := by
  rw [Within, Within, hg.under_eq hs]

omit hs in
theorem size_eq : t'.size = t.size := by
  rw [← card_ids, ← card_ids]
  congr 1
  ext id
  rw [List.mem_toFinset, List.mem_toFinset, mem_ids, mem_ids, hg.node?]
  cases t.node? id <;> simp

theorem ancestors_eq (id : NodeId) : t'.ancestors id = t.ancestors id := by
  have hup : ∀ (fuel : Nat) (start : Option NodeId),
      t'.upFrom fuel start = t.upFrom fuel start := by
    intro fuel
    induction fuel with
    | zero => exact fun _ => rfl
    | succ fuel ih =>
      rintro (_ | id)
      · rfl
      · rw [upFrom, upFrom, hg.parent?_eq hs, ih]
  rw [ancestors, ancestors, hg.size_eq, hg.parent?_eq hs, hup]

/-- Pages enclose what they enclosed before. -/
theorem closestPage?_eq (hdoc : ∀ n, (g n).owningPage = n.owningPage) (id : NodeId) :
    t'.closestPage? id = t.closestPage? id := by
  have hpage : ∀ a, (t'.node? a).any (·.kind.isPage) = (t.node? a).any (·.kind.isPage) := by
    intro a
    rw [hg.node?]
    cases ha : t.node? a with
    | none => rfl
    | some n => exact (Node.place_eq_iff.mp (hs ha)).2.2.2.2
  have hclosest : t'.closest? (·.kind.isPage) id = t.closest? (·.kind.isPage) id := by
    unfold closest?
    rw [hg.node?, hg.ancestors_eq hs]
    cases hid : t.node? id with
    | none => rfl
    | some n =>
      simp only [Option.map_some, Option.bind_eq_bind, Option.bind_some, hpage,
        (Node.place_eq_iff.mp (hs hid)).2.2.2.2]
  rw [closestPage?, closestPage?, hclosest, hg.document? hdoc]

end Rewritten

theorem WellFormed.of_still (h : t.WellFormed) (hg : Rewritten g t t') (hs : Rewritten.Still t g) :
    t'.WellFormed where
  keyed := by
    intro id n hn
    obtain ⟨m, hm, rfl⟩ := hg.exists_of_some hn
    rw [(Node.place_eq_iff.mp (hs hm)).1, h.keyed hm]
  child_iff := by
    intro p i c
    rw [hg.children_eq hs, h.child_iff]
    constructor
    · rintro ⟨n, hn, hp, hpos⟩
      obtain ⟨-, hparent, -, hposition, -⟩ := Node.place_eq_iff.mp (hs hn)
      exact ⟨g n, hg.node?_of_some hn, hparent.trans hp, hposition.trans hpos⟩
    · rintro ⟨n, hn, hp, hpos⟩
      obtain ⟨m, hm, rfl⟩ := hg.exists_of_some hn
      obtain ⟨-, hparent, -, hposition, -⟩ := Node.place_eq_iff.mp (hs hm)
      exact ⟨m, hm, hparent.symm.trans hp, hposition.symm.trans hpos⟩
  root_position := by
    intro id n hn hp
    obtain ⟨m, hm, rfl⟩ := hg.exists_of_some hn
    obtain ⟨-, hparent, -, hposition, -⟩ := Node.place_eq_iff.mp (hs hm)
    exact hposition.trans (h.root_position hm (hparent.symm.trans hp))
  acyclic := by
    rw [hg.below_eq hs]
    exact h.acyclic
  page_root := by
    intro id n hn hpage
    obtain ⟨m, hm, rfl⟩ := hg.exists_of_some hn
    obtain ⟨-, hparent, -, -, hkind⟩ := Node.place_eq_iff.mp (hs hm)
    exact hparent.trans (h.page_root hm (hkind ▸ hpage))

/-- The counter and the shadow page stay in order where pages stay pages. -/
theorem Sound.of_rewritten (h : t.Sound) (hg : Rewritten g t t') (hwf : t'.WellFormed)
    (hpage : ∀ ⦃id n⦄, t.node? id = some n → (g n).kind.isPage = n.kind.isPage) : t'.Sound where
  toWellFormed := hwf
  id_le_lastId := by
    intro id n hn
    obtain ⟨m, hm, -⟩ := hg.exists_of_some hn
    rw [hg.lastId]
    exact h.id_le_lastId hm
  shadow_page := by
    intro s hs
    rw [hg.shadow] at hs
    obtain ⟨n, hn, hk⟩ := h.shadow_page hs
    exact ⟨g n, hg.node?_of_some hn, by rw [hpage hn, hk]⟩

theorem Sound.of_still (h : t.Sound) (hg : Rewritten g t t') (hs : Rewritten.Still t g) :
    t'.Sound :=
  h.of_rewritten hg (h.toWellFormed.of_still hg hs) fun _ _ hn =>
    (Node.place_eq_iff.mp (hs hn)).2.2.2.2

/-- Only the nodes matter for well-formedness. -/
theorem WellFormed.of_nodes_eq (h : t.WellFormed) (hn : t'.nodes = t.nodes) : t'.WellFormed := by
  obtain ⟨nodes, sharing, lastId, shadow⟩ := t
  obtain ⟨nodes', sharing', lastId', shadow'⟩ := t'
  obtain rfl : nodes' = nodes := hn
  exact ⟨h.keyed, h.child_iff, h.root_position, h.acyclic, h.page_root⟩

theorem Sound.of_sharing (h : t.Sound) (sharing : Sharing) : { t with sharing }.Sound where
  toWellFormed := h.toWellFormed.of_nodes_eq rfl
  id_le_lastId := h.id_le_lastId
  shadow_page := h.shadow_page

/-- The identifiers of the nodes of a branch in document order. -/
def branchIds (t : Tree) (root : NodeId) : List NodeId :=
  (t.branchNodes root).map (·.id)

theorem WellFormed.mem_branchIds_iff (h : t.WellFormed) {root : NodeId}
    (hn : t.node? id = some n) : id ∈ t.branchIds root ↔ t.Within id root := by
  obtain rfl := h.keyed hn
  rw [branchIds, List.mem_map]
  constructor
  · rintro ⟨m, hm, hid⟩
    exact hid ▸ (h.mem_branchNodes_iff.mp hm).2
  · intro hw
    exact ⟨n, h.mem_branchNodes_iff.mpr ⟨hn, hw⟩, rfl⟩

end Tree

namespace Draft

open ContentTree.Tree (Rewritten)

variable {d : Draft} {id : NodeId} {n : Node} {f : Node → Node}

/-! ### Documents -/

/-- What becomes of a node when the given nodes move into a document. Pages stay as they are. -/
def documented (ids : List NodeId) (document : Option NodeId) (n : Node) : Node :=
  if n.id ∈ ids ∧ n.kind.isPage = false then { n with document } else n

theorem place_documented (ids : List NodeId) (document : Option NodeId) (n : Node) :
    (documented ids document n).place = n.place := by
  unfold documented
  split <;> rfl

theorem rewritten_foldl_document (ns : List Node) (document : Option NodeId) :
    ∀ d : Draft, d.tree.Keyed →
      Rewritten (documented (ns.map (·.id)) document) d.tree (ns.foldl (fun d n =>
        d.modify n.id fun n => if n.kind.isPage then n else { n with document }) d).tree := by
  induction ns with
  | nil =>
    intro d _
    exact (Rewritten.refl _).congr fun _ _ _ => by simp [documented]
  | cons m ns ih =>
    intro d hk
    set f : Node → Node := fun n => if n.kind.isPage then n else { n with document } with hf
    have hfid : ∀ n, (f n).id = n.id := by
      intro n
      rw [hf]
      dsimp only
      split <;> rfl
    have hhead : Rewritten (at_ m.id f) d.tree (d.modify m.id f).tree := rewritten_modify hk hfid
    refine (hhead.trans (ih _ (hhead.keyed hk (at_id hfid)))).congr fun x n _ => ?_
    by_cases hpage : n.kind.isPage <;> by_cases hid : n.id = m.id <;>
      by_cases hmem : n.id ∈ ns.map (·.id) <;> simp_all [documented, at_]

theorem rewritten_setDocument (hk : d.tree.Keyed) (root : NodeId) (document : Option NodeId) :
    Rewritten (documented (d.tree.branchIds root) document) d.tree
      (d.setDocument root document).tree :=
  rewritten_foldl_document (d.tree.branchNodes root) document d hk

theorem still_documented (t : Tree) (ids : List NodeId) (document : Option NodeId) :
    Rewritten.Still t (documented ids document) :=
  fun _ n _ => place_documented ids document n

/-! ### Contents -/

/-- A node with another content. A page keeps its version. -/
def recast (content : Content) (n : Node) : Node :=
  let kind := match n.kind.version? with
    | some version => content.kind.withVersion version
    | none => content.kind
  { n with toContent := { content with kind } }

/-- A page of the next version. -/
def bumped (n : Node) : Node :=
  match n.kind.version? with
  | some version => { n with kind := n.kind.withVersion (version + 1) }
  | none => n

theorem rewritten_setContent (hk : d.tree.Keyed) (id : NodeId) (content : Content) :
    Rewritten (at_ id (recast content)) d.tree (d.setContent id content).tree :=
  rewritten_modify hk fun _ => rfl

theorem bumped_id (n : Node) : (bumped n).id = n.id := by
  unfold bumped
  split <;> rfl

theorem rewritten_bumpVersion (hk : d.tree.Keyed) (id : NodeId) :
    Rewritten (at_ id bumped) d.tree (d.bumpVersion id).tree :=
  rewritten_modify hk bumped_id

theorem isPage_withVersion (k : Kind) (version : Nat) :
    (k.withVersion version).isPage = k.isPage := by
  cases k <;> rfl

theorem isPage_recast (content : Content) (n : Node) :
    (recast content n).kind.isPage = content.kind.isPage := by
  unfold recast
  split <;> simp [isPage_withVersion]

theorem place_bumped (n : Node) : (bumped n).place = n.place := by
  unfold bumped
  split <;> simp [Node.place, isPage_withVersion]

theorem owningPage_bumped (n : Node) : (bumped n).owningPage = n.owningPage := by
  unfold bumped
  split <;> simp [Node.owningPage, isPage_withVersion]

theorem place_at {t : Tree} (h : ∀ n, (f n).place = n.place) : Rewritten.Still t (at_ id f) := by
  intro _ n _
  unfold at_
  split
  · exact h n
  · rfl

/-- Where one node is rewritten and keeps its parent, all nodes have the parents they had. -/
theorem parent?_of_at {t t' : Tree} {f : Node → Node}
    (hg : ∀ x, t'.node? x = (t.node? x).map (at_ id f)) (hf : ∀ n, (f n).parent = n.parent)
    (x : NodeId) : t'.parent? x = t.parent? x := by
  rw [Tree.parent?, Tree.parent?, hg]
  cases t.node? x with
  | none => rfl
  | some n =>
    simp only [Option.map_some, Option.bind_some, at_]
    split
    · exact hf n
    · rfl

/-- Where one node is rewritten and keeps its children, all nodes have the children they had. -/
theorem children_of_at {t t' : Tree} {f : Node → Node}
    (hg : ∀ x, t'.node? x = (t.node? x).map (at_ id f)) (hf : ∀ n, (f n).children = n.children)
    (x : NodeId) : t'.children x = t.children x := by
  rw [Tree.children, Tree.children, hg]
  cases t.node? x with
  | none => rfl
  | some n =>
    simp only [Option.map_some, at_]
    split
    · exact hf n
    · rfl

/-! ### Components -/

theorem tree_link (d : Draft) (mirror component : NodeId) :
    (d.link mirror component).tree =
      { (d.modify mirror ({ · with component := some component })).tree with
        sharing := d.tree.sharing.link mirror component } := by
  unfold link
  cases d.tree.sharing.componentOf mirror <;> simp only [modify, touch, Tree.node?] <;>
    split <;> rfl

theorem tree_unlink (d : Draft) (mirror : NodeId) :
    (d.unlink mirror).tree =
      { (d.modify mirror ({ · with component := none })).tree with
        sharing := d.tree.sharing.unlink mirror } := by
  unfold unlink
  cases d.tree.sharing.componentOf mirror <;> simp only [modify, touch, Tree.node?] <;>
    split <;> rfl

theorem node?_link (hk : d.tree.Keyed) (mirror component id : NodeId) :
    (d.link mirror component).tree.node? id =
      (d.tree.node? id).map (at_ mirror ({ · with component := some component })) := by
  rw [tree_link]
  exact (rewritten_modify (f := ({ · with component := some component })) hk fun _ => rfl).node? id

theorem node?_unlink (hk : d.tree.Keyed) (mirror id : NodeId) :
    (d.unlink mirror).tree.node? id =
      (d.tree.node? id).map (at_ mirror ({ · with component := none })) := by
  rw [tree_unlink]
  exact (rewritten_modify (f := ({ · with component := none })) hk fun _ => rfl).node? id

end Draft

namespace Tree

variable {d : Draft}

theorem Sound.setDocument (h : d.tree.Sound) (root : NodeId) (document : Option NodeId) :
    (d.setDocument root document).tree.Sound :=
  h.of_still (Draft.rewritten_setDocument h.keyed root document) (Draft.still_documented _ _ _)

theorem Sound.setContent {id : NodeId} {content : Content} (h : d.tree.Sound)
    (hpage : ∀ n, d.tree.node? id = some n → content.kind.isPage = n.kind.isPage) :
    (d.setContent id content).tree.Sound := by
  refine h.of_still (Draft.rewritten_setContent h.keyed id content) fun x n hn => ?_
  unfold Draft.at_
  split
  · next hid =>
    obtain rfl := h.keyed hn
    simp only [Node.place_eq_iff, Draft.isPage_recast, hpage n (hid ▸ hn), and_true]
    exact ⟨rfl, rfl, rfl, rfl⟩
  · rfl

theorem Sound.modify (h : d.tree.Sound) (id : NodeId) {f : Node → Node}
    (hf : ∀ n, (f n).place = n.place) : (d.modify id f).tree.Sound :=
  h.of_still (Draft.rewritten_modify h.keyed fun n => (Node.place_eq_iff.mp (hf n)).1)
    (Draft.place_at hf)

theorem Sound.bumpVersion (h : d.tree.Sound) (id : NodeId) : (d.bumpVersion id).tree.Sound :=
  h.modify id Draft.place_bumped

theorem Sound.link (h : d.tree.Sound) (mirror component : NodeId) :
    (d.link mirror component).tree.Sound := by
  rw [Draft.tree_link]
  refine (h.modify mirror ?_).of_sharing _
  exact fun _ => rfl

theorem Sound.unlink (h : d.tree.Sound) (mirror : NodeId) : (d.unlink mirror).tree.Sound := by
  rw [Draft.tree_unlink]
  refine (h.modify mirror ?_).of_sharing _
  exact fun _ => rfl

end Tree

end ContentTree
