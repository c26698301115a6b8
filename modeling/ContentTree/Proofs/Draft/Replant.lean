import ContentTree.Proofs.Draft.Load
import ContentTree.Proofs.Pairs

/-!
# Loading what was exported

A snapshot that was taken of a branch holds all identifiers. Where they are free, loading gives
every node its identifier back, and children come to stand where they stood, because each of them is
put at the end of those before it.

## Main definitions

* `Branch.links`: the references to components in a branch.
* `Loading.Plants`: a snapshot of a branch is loaded as a copy of the branch.

## Main results

* `Draft.node?_attach_end`: the tree after a node was put at the end of a list.
* `Loading.plants`: the nodes of the snapshot of a branch.
* `Loading.node?_enclose`, `Loading.run_references`: they enter their document, and all references
  are resolved.
-/

namespace ContentTree

namespace Node

/-- A node outside every document, without its component. -/
def bare (n : Node) : Node := { n with document := none, component := none }

/-- A node without a parent. -/
def uprooted (n : Node) : Node := { n with parent := none, position := 0 }

/-- A node with more children. -/
def extended (n : Node) (more : List NodeId) : Node := { n with children := n.children ++ more }

@[simp] theorem children_extended (n : Node) (more : List NodeId) :
    (n.extended more).children = n.children ++ more := rfl

@[simp] theorem extended_nil (n : Node) : n.extended [] = n := by
  rw [extended, List.append_nil]

@[simp] theorem extended_extended (n : Node) (more rest : List NodeId) :
    (n.extended more).extended rest = n.extended (more ++ rest) := by
  simp only [extended, List.append_assoc]

end Node

namespace Branch

/-- The references to components in document order. -/
def links (b : Branch) : List (NodeId × NodeId) :=
  b.nodes.filterMap fun n => n.component.map fun c => (n.id, c)

theorem links_mk (n : Node) (cs : List Branch) :
    links ⟨n, cs⟩ = (n.component.map fun c => (n.id, c)).toList ++ cs.flatMap links := by
  have hall : (allNodes cs).filterMap (fun n => n.component.map fun c => (n.id, c)) =
      cs.flatMap links := by
    induction cs with
    | nil => rfl
    | cons c cs ih =>
      rw [show allNodes (c :: cs) = c.nodes ++ allNodes cs from rfl, List.filterMap_append, ih]
      rfl
  rw [links, nodes_mk, List.filterMap_cons, hall]
  cases n.component <;> rfl

end Branch

namespace Draft

variable {d : Draft} {p c : NodeId} {m n : Node}

/-- A node that is put at the end of a list moves none of those before it. -/
theorem node?_attach_end (h : d.tree.WellFormed) (hp : d.tree.node? p = some m)
    (hc : d.tree.node? c = some n) (hroot : n.parent = none) (hpc : p ≠ c) (x : NodeId) :
    (d.attach p c m.children.length).tree.node? x =
      if x = p then some (m.extended [c])
      else if x = c then some { n with parent := some p, position := m.children.length }
      else d.tree.node? x := by
  have hg := rewritten_attach (i := m.children.length) h hc hroot hpc hp
  rw [Tree.children_eq hp, Nat.min_self] at hg
  -- The indices of the children that are there already are smaller.
  have hlt : ∀ {y}, d.tree.node? y.id = some y →
      ¬ (y.parent = some p ∧ m.children.length ≤ y.position) := by
    rintro y hy ⟨hparent, hle⟩
    have hget := h.child_iff.mpr ⟨y, hy, hparent, rfl⟩
    rw [Tree.children_eq hp, List.getElem?_eq_none hle] at hget
    exact nomatch hget
  rw [hg.node?]
  by_cases hxp : x = p
  · subst hxp
    obtain rfl := h.keyed hp
    rw [if_pos rfl, hp, Option.map_some]
    simp [attached, hpc, hlt hp, List.insertIdx_length_self, Node.extended]
  · rw [if_neg hxp]
    by_cases hxc : x = c
    · subst hxc
      obtain rfl := h.keyed hc
      rw [if_pos rfl, hc, Option.map_some]
      simp [attached, hxp]
    · rw [if_neg hxc]
      cases hy : d.tree.node? x with
      | none => rfl
      | some y =>
        obtain rfl := h.keyed hy
        simp [attached, hxp, hxc, hlt hy]

end Draft

namespace Loading

open Draft (Grown NewRoot)

variable {t : Tree} {d : Draft} {p : NodeId}

/-- The snapshot of a branch is loaded as a copy of the branch, with the nodes that a tree has:
where all identifiers are free, and before the copy enters a document and its references are
resolved. -/
def Plants (t : Tree) (b : Branch) : Prop :=
  ∀ d : Draft, d.tree.Sound → (∀ x ∈ b.ids, d.tree.node? x = none) →
    ∃ d', (nodes (Snapshot.ofBranch b)).run d = (.ok (b.id, b.links), d') ∧
      ∀ x, d'.tree.node? x =
        if x = b.id then some b.node.bare.uprooted
        else if x ∈ b.ids then (t.node? x).map Node.bare
        else d.tree.node? x

theorem content_ofBranch (b : Branch) : (Snapshot.ofBranch b).content = b.node.toContent := by
  cases b
  rfl

/-- A child is planted as a root of its own, and then comes to stand where it stood. -/
theorem plants_child {c : Branch} {m : Node} (ht : t.WellFormed) (hplants : Plants t c)
    (hshows : c.Shows t) (hpage : c.node.kind.isPage = false) (hd : d.tree.Sound)
    (hm : d.tree.node? p = some m) (hget : (t.children p)[m.children.length]? = some c.id)
    (hp : p ∉ c.ids) (hfree : ∀ x ∈ c.ids, d.tree.node? x = none) :
    ∃ d', (nodes (Snapshot.ofBranch c)).run d = (.ok (c.id, c.links), d') ∧
      (d'.attach p c.id m.children.length).tree.Sound ∧
      ∀ x, (d'.attach p c.id m.children.length).tree.node? x =
        if x = p then some (m.extended [c.id])
        else if x ∈ c.ids then (t.node? x).map Node.bare
        else d.tree.node? x := by
  obtain ⟨d', hrun, hd'⟩ := hplants d hd hfree
  obtain ⟨hgrown, hnew⟩ : Grown d.tree d' ∧ d.tree.node? c.id = none := by
    have h := grown_nodes (Snapshot.ofBranch c) d hd
    rw [hrun] at h
    exact ⟨h.1, (h.2 _ rfl).1.new⟩
  have hpc : p ≠ c.id := fun heq => hp (heq ▸ c.id_mem_ids)
  have hm' : d'.tree.node? p = some m := hgrown.old hm
  have hc' : d'.tree.node? c.id = some c.node.bare.uprooted := by rw [hd', if_pos rfl]
  refine ⟨d', hrun, hgrown.sound.attach hm' hc' rfl hpage
    (hgrown.old.not_within hd.toWellFormed hm hnew), fun x => ?_⟩
  rw [Draft.node?_attach_end hgrown.sound.toWellFormed hm' hc' rfl hpc, hd']
  by_cases hxc : x = c.id
  · -- The new place is the one that the node had.
    subst hxc
    obtain ⟨n, hn, hparent, hposition⟩ := ht.child_iff.mp hget
    obtain rfl := Option.some.inj (hshows.node?.symm.trans hn)
    rw [if_neg hpc.symm, if_neg hpc.symm, if_pos rfl, if_pos c.id_mem_ids, hn, Option.map_some,
      ← hparent, ← hposition]
    rfl
  · rw [if_neg hxc, if_neg hxc]

/-- Children are planted one after the other, each at the end of those before it. -/
theorem plants_children (ht : t.WellFormed) (cs : List Branch)
    (hcs : ∀ c ∈ cs, Plants t c ∧ c.Shows t ∧ c.node.kind.isPage = false) :
    ∀ (d : Draft) (m : Node), d.tree.Sound → d.tree.node? p = some m →
      t.children p = m.children ++ cs.map Branch.id → (p :: cs.flatMap Branch.ids).Nodup →
      (∀ x ∈ cs.flatMap Branch.ids, d.tree.node? x = none) →
      ∃ d', (nodes.children p m.children.length (Snapshot.ofBranch.ofBranches cs)).run d =
          (.ok (cs.flatMap Branch.links), d') ∧
        ∀ x, d'.tree.node? x =
          if x = p then some (m.extended (cs.map Branch.id))
          else if x ∈ cs.flatMap Branch.ids then (t.node? x).map Node.bare
          else d.tree.node? x := by
  induction cs with
  | nil =>
    intro d m _ hm _ _ _
    refine ⟨d, rfl, fun x => ?_⟩
    by_cases hx : x = p
    · rw [if_pos hx, hx, hm, List.map_nil, Node.extended_nil]
    · simp [hx]
  | cons c cs ih =>
    intro d m hd hm hchildren hnodup hfree
    obtain ⟨hplants, hshows, hpage⟩ := hcs c List.mem_cons_self
    rw [List.flatMap_cons] at hnodup hfree
    obtain ⟨hp, hnodup⟩ := List.nodup_cons.mp hnodup
    obtain ⟨-, hrest, hdisjoint⟩ := List.nodup_append.mp hnodup
    rw [List.mem_append, not_or] at hp
    have hget : (t.children p)[m.children.length]? = some c.id := by simp [hchildren]
    obtain ⟨d₁, hrun, hsound, hd₁⟩ := plants_child ht hplants hshows hpage hd hm hget hp.1
      fun x hx => hfree x (List.mem_append_left _ hx)
    have hfree₁ : ∀ x ∈ cs.flatMap Branch.ids,
        (d₁.attach p c.id m.children.length).tree.node? x = none := by
      intro x hx
      have hxp : x ≠ p := fun heq => hp.2 (heq ▸ hx)
      have hxc : x ∉ c.ids := fun hxc => hdisjoint x hxc x hx rfl
      rw [hd₁, if_neg hxp, if_neg hxc, hfree x (List.mem_append_right _ hx)]
    obtain ⟨d₂, hrun', hd₂⟩ := ih (fun c' hc' => hcs c' (List.mem_cons_of_mem _ hc')) _
      (m.extended [c.id]) hsound (by rw [hd₁, if_pos rfl])
      (by simp [hchildren]) (List.nodup_cons.mpr ⟨hp.2, hrest⟩) hfree₁
    rw [Node.children_extended, List.length_append, List.length_singleton] at hrun'
    refine ⟨d₂, ?_, fun x => ?_⟩
    · rw [Snapshot.ofBranch.ofBranches, run_children_cons, content_ofBranch, hpage,
        if_neg Bool.false_ne_true, hrun]
      dsimp only
      rw [hrun', List.flatMap_cons]
    · rw [hd₂, hd₁]
      by_cases hxp : x = p <;> by_cases hin : x ∈ c.ids <;>
        by_cases hin' : x ∈ cs.flatMap Branch.ids <;> simp [hxp, hin, hin']

/-- The nodes of the snapshot of a branch. -/
theorem plants (ht : t.WellFormed) (b : Branch) (hb : b.Shows t) : Plants t b := by
  induction b with
  | mk n cs ih =>
    intro d hd hfree
    have hnodup := hb.nodup_ids ht
    have hplain := ht.innerPlain hb
    obtain ⟨hn, hcs, hshows⟩ := Branch.shows_mk.mp hb
    rw [Branch.ids_mk] at hfree hnodup
    have hid : d.tree.node? n.id = none := hfree n.id List.mem_cons_self
    have henter : enter (some n.id) n.toContent d = (n.id, d.addAt n.id n.toContent) := by
      rw [enter, Tree.contains_eq, hid]
      rfl
    have hfree' : ∀ x ∈ cs.flatMap Branch.ids,
        (d.addAt n.id n.toContent).tree.node? x = none := by
      intro x hx
      have hne : x ≠ n.id := fun heq => (List.nodup_cons.mp hnodup).1 (heq ▸ hx)
      rw [Draft.node?_addAt, if_neg hne, hfree x (List.mem_cons_of_mem _ hx)]
    obtain ⟨d', hrun, hd'⟩ := plants_children ht cs
      (fun c hc => ⟨ih c hc (hshows c hc), hshows c hc, (hplain.of_mem hc).1⟩) _
      (Node.ofContent n.id n.toContent) (hd.addAt hid _) (by rw [Draft.node?_addAt, if_pos rfl])
      ((Tree.children_eq hn).trans hcs) hnodup hfree'
    refine ⟨d', ?_, fun x => ?_⟩
    · rw [Snapshot.ofBranch, run_nodes, henter]
      dsimp only
      rw [show (0 : Nat) = (Node.ofContent n.id n.toContent).children.length from rfl, hrun,
        Branch.links_mk]
      rfl
    · have hroot : (Node.ofContent n.id n.toContent).extended (cs.map Branch.id) =
          n.bare.uprooted := by
        rw [← hcs]
        rfl
      rw [hd', Draft.node?_addAt, hroot, show Branch.id ⟨n, cs⟩ = n.id from rfl]
      by_cases hx : x = n.id
      · rw [if_pos hx, if_pos hx]
        rfl
      · simp [Branch.ids_mk, hx]

/-! ### Documents and references -/

/-- What becomes of a node when its branch is the only one and enters its document. -/
def enclosed (kind : Kind) (root : NodeId) (n : Node) : Node :=
  if n.kind.isPage then n else { n with document := if kind.isPage then some root else none }

/-- Everything that is new enters the document. -/
theorem node?_enclose {d' : Draft} {content : Content} {root : NodeId} (hd : Grown t d')
    (hroot : NewRoot t d' root content.kind) (hnew : ∀ x, t.node? x = none) (x : NodeId) :
    (enclose content root d').tree.node? x =
      (d'.tree.node? x).map (enclosed content.kind root) := by
  have hset : ∀ d : Draft, d.tree.nodes = d'.tree.nodes → ∀ document,
      (d.setDocument root document).tree.node? x =
        (d'.tree.node? x).map fun n => if n.kind.isPage then n else { n with document } := by
    intro d hnodes document
    have hwf : d.tree.WellFormed := hd.sound.toWellFormed.of_nodes_eq hnodes
    have hsame : ∀ y, d.tree.node? y = d'.tree.node? y := fun y => by
      rw [Tree.node?, Tree.node?, hnodes]
    rw [(Draft.rewritten_setDocument hwf.keyed root document).node?, hsame]
    cases hn : d'.tree.node? x with
    | none => rfl
    | some n =>
      have hwithin : d.tree.Within x root := by
        have h := hroot.within hn (hnew x)
        rwa [Tree.Within, show d.tree.Under = d'.tree.Under from ?_]
        funext y z
        rw [Tree.Under, Tree.Under, Tree.parent?, Tree.parent?, hsame]
      have hmem := (hwf.mem_branchIds_iff ((hsame x).trans hn)).mpr hwithin
      rw [← hd.sound.keyed hn] at hmem
      cases hpage : n.kind.isPage <;> simp [Draft.documented, hmem, hpage]
  unfold enclosed
  rw [enclose]
  split
  · next name version shadow hkind =>
    rw [hset _ (by split <;> rfl), hkind]
    rfl
  · next hkind =>
    have hpage : content.kind.isPage = false := by
      cases hk : content.kind with
      | page name version shadow => exact absurd hk (hkind name version shadow)
      | _ => rfl
    rw [hset _ rfl, hpage]
    rfl

/-- A node with the component that it is to refer to, if there is one. -/
def resolved (refs : List (NodeId × NodeId)) (n : Node) : Node :=
  { n with component := (refs.lookup n.id).or n.component }

/-- Where the components are there, all references are resolved. -/
theorem run_references (refs : List (NodeId × NodeId)) :
    ∀ d : Draft, d.tree.Sound → (refs.map Prod.fst).Nodup →
      (∀ ref ∈ refs, ∃ n, d.tree.node? ref.2 = some n) →
      ∃ d', (references refs).run d = (.ok (), d') ∧
        ∀ x, d'.tree.node? x = (d.tree.node? x).map (resolved refs) := by
  induction refs with
  | nil =>
    refine fun d _ _ _ => ⟨d, rfl, fun x => ?_⟩
    cases d.tree.node? x <;> rfl
  | cons ref refs ih =>
    intro d hd hnodup hcomponents
    obtain ⟨m, c⟩ := ref
    obtain ⟨hm, hnodup⟩ := List.nodup_cons.mp hnodup
    obtain ⟨k, hk⟩ := hcomponents (m, c) List.mem_cons_self
    have hlink := Draft.node?_link hd.keyed m c
    obtain ⟨d', hrun, hd'⟩ := ih (d.link m c) (hd.link m c) hnodup fun ref href => by
      obtain ⟨n, hn⟩ := hcomponents ref (List.mem_cons_of_mem _ href)
      exact ⟨_, by rw [hlink, hn, Option.map_some]⟩
    refine ⟨d', ?_, fun x => ?_⟩
    · rw [run_references_cons, if_pos (Tree.contains_iff.mpr ⟨k, hk⟩), hrun]
    · -- The mirror occurs once, so that the rest does not concern it any more.
      have hnone : refs.lookup m = none := by
        refine List.lookup_eq_none_iff.mpr fun ref href => bne_iff_ne.mpr fun heq => hm ?_
        exact List.mem_map.mpr ⟨ref, href, heq.symm⟩
      rw [hd', hlink, Option.map_map]
      congr 1
      funext n
      by_cases hid : n.id = m
      · simp [resolved, Draft.at_, hid, hnone]
      · simp [resolved, Draft.at_, hid, List.lookup_cons, beq_false_of_ne hid]

/-- No node has two references. -/
theorem nodup_links {b : Branch} (h : b.ids.Nodup) : (b.links.map Prod.fst).Nodup := by
  have hsublist := map_fst_pairs_sublist (fun n : Node => some n.id) Node.component b.nodes
  rw [List.filterMap_eq_map'] at hsublist
  exact h.sublist hsublist

/-- The references of a list of nodes give each of them its component back. -/
theorem lookup_links {n : Node} (ns : List Node) (hn : n ∈ ns) (hnodup : (ns.map (·.id)).Nodup) :
    (ns.filterMap fun n => n.component.map fun c => (n.id, c)).lookup n.id = n.component := by
  rw [← List.filterMap_eq_map'] at hnodup
  exact lookup_pairs hnodup hn rfl

end Loading

end ContentTree
