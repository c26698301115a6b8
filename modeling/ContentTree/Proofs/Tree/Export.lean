import ContentTree.Proofs.Draft.Replant
import ContentTree.Proofs.Draft.Sharing
import ContentTree.Proofs.Session.Reach

/-!
# What is exported can be loaded again

The snapshot of a node holds everything below it. Loaded into an empty tree, it becomes a tree that
has these nodes and no others, and gives the same snapshot again.

## Main definitions

* `Node.extracted`: what becomes of a node when the branch of another is all there is.
* `Tree.Extracted`: a tree holds the branch of a node of another tree, and nothing else.

## Main results

* `Loading.exists_load_ofBranch`: the snapshot of a branch is loaded.
* `Extracted.export?_eq`: the snapshot of the branch is the same.
* `WellFormed.load_export`: what is exported is loaded as it was.
-/

namespace ContentTree

/-- What becomes of a node when the branch of `root` is all there is. The root has no parent any
more, and everything belongs to the given document. -/
def Node.extracted (root : NodeId) (document : Option NodeId) (n : Node) : Node :=
  { n with
    parent := if n.id = root then none else n.parent
    position := if n.id = root then 0 else n.position
    document := if n.kind.isPage then none else document }

namespace Branch

/-- A branch with every node rewritten. -/
def map (f : Node → Node) : Branch → Branch
  | ⟨n, cs⟩ => ⟨f n, mapAll f cs⟩
where
  mapAll (f : Node → Node) : List Branch → List Branch
    | [] => []
    | c :: cs => map f c :: mapAll f cs

variable {t t' : Tree} {f : Node → Node}

theorem mapAll_eq (f : Node → Node) (cs : List Branch) : map.mapAll f cs = cs.map (map f) := by
  induction cs with
  | nil => rfl
  | cons c cs ih => rw [map.mapAll, ih, List.map_cons]

theorem id_map (hf : ∀ n, (f n).id = n.id) (b : Branch) : (b.map f).id = b.id := by
  cases b
  exact hf _

/-- Where every node of a branch is rewritten and keeps its children, the rewritten branch is what
shows. -/
theorem Shows.map {b : Branch} (h : b.Shows t) (hid : ∀ n, (f n).id = n.id)
    (hchildren : ∀ n, (f n).children = n.children)
    (hnodes : ∀ n ∈ b.nodes, t'.node? n.id = some (f n)) : (b.map f).Shows t' := by
  induction b with
  | mk n cs ih =>
    obtain ⟨-, hcs, hall⟩ := shows_mk.mp h
    rw [nodes_mk] at hnodes
    rw [Branch.map, mapAll_eq]
    refine shows_mk.mpr ⟨?_, ?_, fun c hc => ?_⟩
    · rw [hid]
      exact hnodes n List.mem_cons_self
    · rw [hchildren, hcs, List.map_map]
      exact List.map_congr_left fun c _ => (id_map hid c).symm
    · obtain ⟨c', hc', rfl⟩ := List.mem_map.mp hc
      exact ih c' hc' (hall c' hc') fun m hm =>
        hnodes m (List.mem_cons_of_mem _ (mem_allNodes.mpr ⟨c', hc', hm⟩))

end Branch

/-- A snapshot holds contents and components only. -/
theorem Snapshot.ofBranch_map {f : Node → Node} (hid : ∀ n, (f n).id = n.id)
    (hcontent : ∀ n, (f n).toContent = n.toContent)
    (hcomponent : ∀ n, (f n).component = n.component) (b : Branch) :
    ofBranch (b.map f) = ofBranch b := by
  induction b with
  | mk n cs ih =>
    have hall : ∀ cs' ⊆ cs, ofBranch.ofBranches (cs'.map (Branch.map f)) =
        ofBranch.ofBranches cs' := by
      intro cs' hsub
      induction cs' with
      | nil => rfl
      | cons c cs' ihc =>
        rw [List.map_cons, ofBranch.ofBranches, ofBranch.ofBranches,
          ih c (hsub List.mem_cons_self), ihc fun x hx => hsub (List.mem_cons_of_mem _ hx)]
    rw [Branch.map, Branch.mapAll_eq, ofBranch, ofBranch, hid, hcontent, hcomponent,
      hall cs (List.Subset.refl cs)]

namespace Loading

open Draft (Grown NewRoot)

variable {t : Tree}

/-- Planted into an empty tree, a branch is all there is. -/
theorem plants_start (ht : t.WellFormed) {b : Branch} (hb : b.Shows t) :
    ∃ d, (nodes (Snapshot.ofBranch b)).run (Draft.start {}) = (.ok (b.id, b.links), d) ∧
      Grown {} d ∧ NewRoot {} d b.id b.node.kind ∧
      (∀ {x n}, t.node? x = some n → t.Within x b.id →
        d.tree.node? x = some (if x = b.id then n.bare.uprooted else n.bare)) ∧
      ∀ {x n}, d.tree.node? x = some n → t.Within x b.id := by
  obtain ⟨d, hrun, hd⟩ := plants ht b hb (Draft.start {}) Tree.sound_empty
    fun x _ => Tree.node?_empty x
  have hgrown := grown_nodes (Snapshot.ofBranch b) (Draft.start {}) Tree.sound_empty
  rw [hrun, content_ofBranch] at hgrown
  refine ⟨d, hrun, hgrown.1, (hgrown.2 _ rfl).1, fun {x n} hn hw => ?_, fun {x n} hn => ?_⟩
  · rw [hd]
    split
    · next hx =>
      subst hx
      rw [Option.some.inj (hb.node?.symm.trans hn)]
    · rw [if_pos ((hb.mem_ids_iff ht).mpr hw), hn, Option.map_some]
  · by_contra hout
    have hx : x ∉ b.ids := mt (hb.mem_ids_iff ht).mp hout
    have hne : x ≠ b.id := fun heq => hx (heq ▸ b.id_mem_ids)
    rw [hd, if_neg hne, if_neg hx, Draft.tree_start, Tree.node?_empty] at hn
    exact nomatch hn

/-- With its document and its component, a node is what it was in the branch. -/
theorem resolved_eq_extracted {root : NodeId} {kind : Kind} {refs : List (NodeId × NodeId)}
    {n : Node} (href : refs.lookup n.id = n.component) :
    resolved refs (enclosed kind root (if n.id = root then n.bare.uprooted else n.bare)) =
      n.extracted root (if kind.isPage then some root else none) := by
  by_cases hroot : n.id = root <;> cases hpage : n.kind.isPage <;>
    simp [Node.extracted, resolved, enclosed, Node.bare, Node.uprooted, hroot, hpage, ← href]

/-- The snapshot of a branch is loaded into an empty tree where the components are in the branch,
too. -/
theorem exists_load_ofBranch (ht : t.WellFormed) {b : Branch} (hb : b.Shows t)
    (hclosed : ∀ ref ∈ b.links, ref.2 ∈ b.ids) :
    ∃ t', ({} : Tree).load (Snapshot.ofBranch b) = (.ok b.id, t') ∧
      (∀ {x n}, t.node? x = some n → t.Within x b.id →
        t'.node? x = some (n.extracted b.id (if b.node.kind.isPage then some b.id else none))) ∧
      ∀ {x n}, t'.node? x = some n → t.Within x b.id := by
  have hnodup := hb.nodup_ids ht
  -- The nodes come first.
  obtain ⟨d, hnodes, hgrown, hroot, hplanted, hwithin⟩ := plants_start ht hb
  -- Then they enter their document.
  have hentered : ∀ x, (enclose b.node.toContent b.id d).tree.node? x =
      (d.tree.node? x).map (enclosed b.node.kind b.id) :=
    node?_enclose hgrown hroot Tree.node?_empty
  have hcomponents : ∀ ref ∈ b.links,
      ∃ n, (enclose b.node.toContent b.id d).tree.node? ref.2 = some n := by
    intro ref href
    obtain ⟨n, hn, hid⟩ := List.mem_map.mp (hclosed ref href)
    have hw := hb.within_of_mem ht hn
    rw [← hid]
    exact ⟨_, by rw [hentered, hplanted (hb.node?_of_mem hn) hw, Option.map_some]⟩
  -- At the end, the references are resolved.
  obtain ⟨d', hrefs, hd'⟩ :=
    run_references b.links _ (sound_enclose hgrown hroot) (nodup_links hnodup) hcomponents
  refine ⟨d'.tree, ?_, fun {x n} hn hw => ?_, fun {x n} hn => ?_⟩
  · rw [Tree.load, run_snapshot, hnodes, content_ofBranch]
    dsimp only
    rw [hrefs]
  · obtain rfl := ht.keyed hn
    have href : b.links.lookup n.id = n.component :=
      lookup_links b.nodes (hb.mem_of_within ht hw hn) hnodup
    rw [hd', hentered, hplanted hn hw, Option.map_some, Option.map_some,
      resolved_eq_extracted href]
  · rw [hd', hentered] at hn
    obtain ⟨m, hm, -⟩ := Option.map_eq_some_iff.mp hn
    obtain ⟨m', hm', -⟩ := Option.map_eq_some_iff.mp hm
    exact hwithin hm'

end Loading

namespace Tree

variable {t t' : Tree} {root x m c : NodeId} {n : Node}

/-- A tree holds the branch of a node of another tree, and nothing else. If the node is a page,
everything belongs to it, and otherwise to no document. -/
structure Extracted (t : Tree) (root : NodeId) (t' : Tree) : Prop where
  sound : t'.Sound
  shares : t'.Shares
  node : ∀ {x r n}, t.node? root = some r → t.node? x = some n → t.Within x root →
    t'.node? x = some (n.extracted root (if r.kind.isPage then some root else none))
  within : ∀ {x n}, t'.node? x = some n → t.Within x root

theorem Within.exists_node (hw : t.Within x root) (hn : t.node? root = some n) :
    ∃ m, t.node? x = some m := by
  rcases hw.eq_or_below with rfl | hb
  · exact ⟨n, hn⟩
  · obtain ⟨p, hp, -⟩ := hb.exists_under
    exact hp.exists_node.imp fun _ => And.left

namespace Extracted

/-- The snapshot of the branch is the same. -/
theorem export?_eq (h : t.Extracted root t') (ht : t.WellFormed) (hn : t.node? root = some n) :
    t'.export? root = t.export? root := by
  obtain ⟨b, hb, -, hshows⟩ := ht.exists_branch hn
  obtain ⟨rfl, -⟩ := ht.branch?_eq_some_iff.mp hb
  obtain ⟨f, hf⟩ : ∃ f, f = Node.extracted b.id (if n.kind.isPage then some b.id else none) :=
    ⟨_, rfl⟩
  have hid : ∀ m, (f m).id = m.id := fun _ => hf ▸ rfl
  have hshows' : (b.map f).Shows t' := by
    refine hshows.map hid (fun _ => hf ▸ rfl) fun m hm => ?_
    rw [hf]
    exact h.node hn (hshows.node?_of_mem hm) (hshows.within_of_mem ht hm)
  have hb' : t'.branch? b.id = some (b.map f) :=
    h.sound.branch?_eq_some_iff.mpr ⟨Branch.id_map hid b, hshows'⟩
  rw [export?, export?, hb, hb', Option.map_some, Option.map_some,
    Snapshot.ofBranch_map hid (fun _ => hf ▸ rfl) fun _ => hf ▸ rfl]

/-- The nodes of the branch mirror what they mirrored, and nobody else mirrors anything. -/
theorem componentOf_eq_some_iff (h : t.Extracted root t') (hs : t.Shares)
    (hn : t.node? root = some n) :
    t'.sharing.componentOf m = some c ↔ t.Within m root ∧ t.sharing.componentOf m = some c := by
  rw [← h.shares.component?_eq, ← hs.component?_eq]
  -- Within the branch, nodes have kept their components.
  have hsame : t.Within m root → t'.component? m = t.component? m := by
    intro hw
    obtain ⟨k, hk⟩ := hw.exists_node hn
    rw [component?_eq_of_node? (h.node hn hk hw), component?_eq_of_node? hk]
    rfl
  constructor
  · intro hc
    obtain ⟨k, hk, -⟩ := Option.bind_eq_some_iff.mp hc
    exact ⟨h.within hk, (hsame (h.within hk)).symm.trans hc⟩
  · rintro ⟨hw, hc⟩
    exact (hsame hw).trans hc

/-- The relation of mirrors and components is that of the branch. -/
theorem mem_mirrorsOf_iff (h : t.Extracted root t') (hs : t.Shares) (hn : t.node? root = some n) :
    m ∈ t'.sharing.mirrorsOf c ↔ t.Within m root ∧ m ∈ t.sharing.mirrorsOf c := by
  rw [Sharing.mem_mirrorsOf, Sharing.mem_mirrorsOf, h.shares.consistent.mem_iff,
    hs.consistent.mem_iff, h.componentOf_eq_some_iff hs hn]

end Extracted

/-- What is exported is loaded as it was. Where all components that nodes below `root` mirror are
below `root`, too, the snapshot of `root` can be loaded into an empty tree. The result is the branch
of `root` and nothing else: with the same identifiers, contents, children, indices and components,
and with the same relation of mirrors and components. It gives the same snapshot again. -/
theorem WellFormed.load_export (ht : t.WellFormed) (hn : t.node? root = some n)
    (hclosed : ∀ {x k c}, t.node? x = some k → t.Within x root → k.component = some c →
      t.Within c root) :
    ∃ s t', t.export? root = some s ∧ ({} : Tree).load s = (.ok root, t') ∧ t.Extracted root t' ∧
      (t.Shares → ∀ m c, (t'.sharing.componentOf m = some c ↔
        t.Within m root ∧ t.sharing.componentOf m = some c) ∧
        (m ∈ t'.sharing.mirrorsOf c ↔ t.Within m root ∧ m ∈ t.sharing.mirrorsOf c)) ∧
      t'.export? root = some s := by
  obtain ⟨b, hb, rfl, hshows⟩ := ht.exists_branch hn
  obtain ⟨rfl, -⟩ := ht.branch?_eq_some_iff.mp hb
  have hlinks : ∀ ref ∈ b.links, ref.2 ∈ b.ids := by
    intro ref href
    obtain ⟨k, hk, hkc⟩ := List.mem_filterMap.mp href
    obtain ⟨c, hc, rfl⟩ := Option.map_eq_some_iff.mp hkc
    exact (hshows.mem_ids_iff ht).mpr
      (hclosed (hshows.node?_of_mem hk) (hshows.within_of_mem ht hk) hc)
  obtain ⟨t', hload, hnode, hwithin⟩ := Loading.exists_load_ofBranch ht hshows hlinks
  have hextracted : t.Extracted b.id t' := by
    refine ⟨?sound, ?shares, fun {x r k} hr hk hw => ?node, hwithin⟩
    case sound => simpa only [hload] using sound_empty.load (Snapshot.ofBranch b)
    case shares => simpa only [hload] using shares_empty.load sound_empty (Snapshot.ofBranch b)
    case node =>
      obtain rfl := Option.some.inj (hn.symm.trans hr)
      exact hnode hk hw
  have hexport : t.export? b.id = some (Snapshot.ofBranch b) := by
    rw [export?, hb, Option.map_some]
  refine ⟨_, _, hexport, hload, hextracted, fun hs m c => ⟨?_, ?_⟩, ?_⟩
  · exact hextracted.componentOf_eq_some_iff hs hn
  · exact hextracted.mem_mirrorsOf_iff hs hn
  · rw [hextracted.export?_eq ht hn, hexport]

/-- A page with two boxes, the second of which mirrors the first. -/
def mirroredBox : Tree :=
  (({} : Tree).load (.mk (some 1) { kind := .page "home" 3 false } none
    [.mk (some 2) { kind := .element "p" ∅ } none
        [.mk (some 4) { kind := .text "hello" none } none []],
      .mk (some 3) { kind := .element "p" ∅ } (some 2) []])).2

theorem reachable_mirroredBox : mirroredBox.Reachable .successful :=
  .load .empty _ ⟨1, by decide⟩

/-- The page is exported and loaded again. -/
theorem load_export_mirroredBox :
    ∃ s t', mirroredBox.export? 1 = some s ∧ ({} : Tree).load s = (.ok 1, t') ∧
      mirroredBox.Extracted 1 t' ∧ t'.sharing.componentOf 3 = some 2 ∧ t'.export? 1 = some s := by
  have hwf : mirroredBox.WellFormed := reachable_mirroredBox.sound.toWellFormed
  have hshares : mirroredBox.Shares := shares_empty.load sound_empty _
  have hunder : mirroredBox.Under 2 1 ∧ mirroredBox.Under 3 1 := by
    unfold Under
    decide
  obtain ⟨n, hn⟩ : ∃ n, mirroredBox.node? 1 = some n := Option.isSome_iff_exists.mp (by decide)
  have hcomponents : ∀ x ∈ mirroredBox.ids, mirroredBox.component? x ∈ [none, some 2] := by
    decide
  obtain ⟨s, t', hs, hload, hextracted, hsharing, hagain⟩ :=
    hwf.load_export hn fun {x k c} hk _ hc => by
      have hx := hcomponents x (mem_ids.mpr ⟨k, hk⟩)
      rw [component?_eq_of_node? hk, hc] at hx
      obtain rfl : c = 2 := by simpa using hx
      exact .single hunder.1
  refine ⟨s, t', hs, hload, hextracted, ?_, hagain⟩
  exact (hsharing hshares 3 2).1.mpr ⟨.single hunder.2, by decide⟩

end Tree

end ContentTree
