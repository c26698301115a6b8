import ContentTree.Proofs.Draft.Number
import ContentTree.Proofs.Draft.Replant
import ContentTree.Proofs.Session.Reach
import ContentTree.Proofs.Session.Sharing

/-!
# What a loaded snapshot becomes

A snapshot that is loaded into an empty tree comes to stand there as it is, with the identifiers
that its numbering gives. References to components are resolved afterwards, and by identifier alone.

## Main definitions

* `Draft.Counts`: the identifiers that a draft has given out.
* `Snapshot.Stands`: a numbered snapshot stands in a tree.

## Main results

* `Loading.numbers_nodes`, `Loading.stands_load`: loading a snapshot makes it stand in the tree with
  the identifiers of its numbering.
* `Tree.exists_branch_load`: the branch of its root is the snapshot so numbered.
* `Tree.componentOf_load`: which nodes references lead to.
-/

namespace ContentTree

variable {t t' : Tree} {d d' : Draft} {taken : List NodeId} {x p : NodeId} {n : Node}

/-! ### Identifiers that have been given out -/

/-- A draft has given out exactly the given identifiers. -/
structure Draft.Counts (taken : List NodeId) (d : Draft) : Prop where
  nodup : taken.Nodup
  mem_iff : ∀ x, x ∈ taken ↔ ∃ n, d.tree.node? x = some n
  lastId : d.tree.lastId = highest taken

namespace Draft.Counts

theorem start : Counts [] (Draft.start {}) where
  nodup := List.nodup_nil
  mem_iff x := by simp [Tree.node?_empty]
  lastId := rfl

theorem addAt (h : Counts taken d) (hx : x ∉ taken) (content : Content) :
    Counts (taken ++ [x]) (d.addAt x content) where
  nodup := h.nodup.append (List.nodup_singleton x) (by simpa using hx)
  mem_iff y := by
    rw [node?_addAt, List.mem_append, List.mem_singleton, h.mem_iff]
    split <;> simp_all
  lastId := by
    rw [highest_append, ← h.lastId]
    exact congrArg (max d.tree.lastId) (Nat.max_zero x).symm

/-- A node is entered under the number that it gets after the others. -/
theorem enter_eq (h : Counts taken d) (id : Option NodeId) (content : Content) :
    Loading.enter id content d = (number taken id, d.addAt (number taken id) content) := by
  have hadd : d.add content = (highest taken + 1, d.addAt (highest taken + 1) content) := by
    rw [Draft.add, Draft.nextId, h.lastId]
  cases id with
  | none => exact hadd
  | some id =>
    have hmem : d.tree.contains id = true ↔ id ∈ taken :=
      Tree.contains_iff.trans (h.mem_iff id).symm
    rw [Loading.enter, number, hadd]
    simp only [hmem]
    split <;> rfl

theorem attach (h : Counts taken d) (hd : d.tree.WellFormed) {m : Node} {c : NodeId}
    (hp : d.tree.node? p = some m) (hc : d.tree.node? c = some n) (hroot : n.parent = none)
    (hpc : p ≠ c) (i : Nat) : Counts taken (d.attach p c i) where
  nodup := h.nodup
  mem_iff x := by
    rw [h.mem_iff, (rewritten_attach hd hc hroot hpc hp).node?]
    simp
  lastId := (rewritten_attach hd hc hroot hpc hp).lastId.trans h.lastId

end Draft.Counts

/-! ### Snapshots in a tree -/

namespace Snapshot

/-- The nodes of a snapshot stand in a tree, below one another as in the snapshot. -/
def Stands (t : Tree) : Snapshot → Prop
  | mk id content _ ss => (∃ x n, id = some x ∧ t.node? x = some n ∧ n.toContent = content ∧
      n.children.map some = ss.map id?) ∧ listStands ss
where
  listStands : List Snapshot → Prop
    | [] => True
    | s :: ss => Stands t s ∧ listStands ss

theorem stands_mk (t : Tree) (id : Option NodeId) (content : Content) (component : Option NodeId)
    (ss : List Snapshot) : Stands t (mk id content component ss) ↔
      (∃ x n, id = some x ∧ t.node? x = some n ∧ n.toContent = content ∧
        n.children.map some = ss.map id?) ∧ ∀ s ∈ ss, s.Stands t := by
  have hlist : Stands.listStands t ss ↔ ∀ s ∈ ss, s.Stands t := by
    induction ss with
    | nil => simp [Stands.listStands]
    | cons s ss ih => simp [Stands.listStands, ih]
  rw [Stands, hlist]

/-- A snapshot still stands where its nodes keep their contents and their children. -/
theorem Stands.mono {s : Snapshot} (h : s.Stands t)
    (hkeep : ∀ x n, some x ∈ s.carried → t.node? x = some n →
      ∃ n', t'.node? x = some n' ∧ n'.toContent = n.toContent ∧ n'.children = n.children) :
    s.Stands t' := by
  induction s with
  | mk id content component ss ih =>
    rw [stands_mk] at h ⊢
    rw [carried_mk] at hkeep
    obtain ⟨⟨x, n, rfl, hn, hcontent, hchildren⟩, hss⟩ := h
    obtain ⟨n', hn', hcontent', hchildren'⟩ := hkeep x n List.mem_cons_self hn
    refine ⟨⟨x, n', rfl, hn', hcontent'.trans hcontent, hchildren' ▸ hchildren⟩, fun s hs => ?_⟩
    exact ih s hs (hss s hs) fun y k hy => hkeep y k
      (List.mem_cons_of_mem _ (List.mem_flatMap.mpr ⟨s, hs, hy⟩))

/-- A branch is exported as the snapshot that stands in its place, if its nodes refer to the
components. -/
theorem Stands.ofBranch_eq {s : Snapshot} (h : s.Stands t) {b : Branch} (hb : b.Shows t)
    (hid : s.id? = some b.id)
    (hcomponents : ∀ s' ∈ s.all, ∀ x n, s'.id? = some x → t.node? x = some n →
      n.component = s'.component?) : ofBranch b = s := by
  induction s generalizing b with
  | mk id content component ss ih =>
    obtain ⟨n, cs⟩ := b
    obtain ⟨hn, hcs, hshows⟩ := Branch.shows_mk.mp hb
    rw [stands_mk] at h
    obtain ⟨⟨x, n', rfl, hn', rfl, hchildren⟩, hss⟩ := h
    obtain rfl : x = n.id := Option.some.inj hid
    obtain rfl := Option.some.inj (hn.symm.trans hn')
    rw [all_mk] at hcomponents
    have hcomponent : n.component = component := hcomponents _ List.mem_cons_self n.id n rfl hn
    have hlist : ∀ cs', (∀ c ∈ cs', c.Shows t) → ∀ ss' ⊆ ss,
        (cs'.map Branch.id).map some = ss'.map id? → ofBranch.ofBranches cs' = ss' := by
      intro cs' hshows' ss' hsub hids
      induction cs' generalizing ss' with
      | nil => exact (List.map_eq_nil_iff.mp hids.symm).symm
      | cons c cs' ihs =>
        cases ss' with
        | nil => exact nomatch hids
        | cons s ss' =>
          rw [List.cons_subset] at hsub
          obtain ⟨hid', hids⟩ := List.cons.inj hids
          rw [ofBranch.ofBranches,
            ihs (fun c hc => hshows' c (List.mem_cons_of_mem _ hc)) ss' hsub.2 hids,
            ih s hsub.1 (hss s hsub.1) (hshows' c List.mem_cons_self) hid'.symm fun s' hs' =>
              hcomponents s' (List.mem_cons_of_mem _ (List.mem_flatMap.mpr ⟨s, hsub.1, hs'⟩))]
    rw [ofBranch, hcomponent, hlist cs hshows ss (List.Subset.refl ss) (hcs ▸ hchildren)]

end Snapshot

namespace Loading

open Draft (Counts Grown NewRoot)

/-- Loading the nodes of a snapshot makes its numbering stand in the tree. -/
def Numbers (s : Snapshot) : Prop :=
  ∀ d taken r d', d.tree.Sound → Counts taken d → (nodes s).run d = (.ok r, d') →
    Counts (taken ++ numbers taken s.carried) d' ∧ (s.numbered taken).Stands d'.tree ∧
      (s.numbered taken).id? = some r.1 ∧ r.2 = (s.numbered taken).links

/-- An older node is none of those that are numbered. -/
theorem ne_of_mem_carried {s : Snapshot} (hnodup : taken.Nodup) (hp : p ∈ taken)
    (hx : some x ∈ (s.numbered taken).carried) : x ≠ p := by
  rintro rfl
  rw [Snapshot.carried_numbered] at hx
  obtain ⟨y, hy, heq⟩ := List.mem_map.mp hx
  obtain rfl := Option.some.inj heq
  exact (List.nodup_append.mp (nodup_numbers hnodup s.carried)).2.2 y hp y hy rfl

/-- Several snapshots have been put at the end of the children of a node, as they are numbered after
the identifiers that were given out before. -/
structure Appends (taken : List NodeId) (p : NodeId) (m : Node) (ss : List Snapshot)
    (ids : List NodeId) (refs : List (NodeId × NodeId)) (d d' : Draft) : Prop where
  sound : d'.tree.Sound
  counts : Counts (taken ++ numbers taken (ss.flatMap Snapshot.carried)) d'
  stands : ∀ s ∈ Snapshot.numbered.numberedAll taken ss, s.Stands d'.tree
  ids_eq : ids.map some = (Snapshot.numbered.numberedAll taken ss).map Snapshot.id?
  refs_eq : refs = (Snapshot.numbered.numberedAll taken ss).flatMap Snapshot.links
  parent : d'.tree.node? p = some (m.extended ids)
  others : ∀ y k, y ≠ p → d.tree.node? y = some k → d'.tree.node? y = some k

namespace Appends

variable {m : Node} {ids : List NodeId} {refs : List (NodeId × NodeId)} {s : Snapshot}
  {ss : List Snapshot}

theorem nil (hd : d.tree.Sound) (hcounts : Counts taken d) (hp : d.tree.node? p = some m) :
    Appends taken p m [] [] [] d d where
  sound := hd
  counts := by simpa [numbers] using hcounts
  stands := by simp [Snapshot.numbered.numberedAll]
  ids_eq := rfl
  refs_eq := rfl
  parent := by rw [hp, Node.extended_nil]
  others _ _ _ hk := hk

theorem cons {c : NodeId} {inner : List (NodeId × NodeId)} {d₁ : Draft} (hnodup : taken.Nodup)
    (hp : p ∈ taken) (h : Appends taken p m [s] [c] inner d d₁)
    (h' : Appends (taken ++ numbers taken s.carried) p (m.extended [c]) ss ids refs d₁ d') :
    Appends taken p m (s :: ss) (c :: ids) (inner ++ refs) d d' where
  sound := h'.sound
  counts := by
    rw [List.flatMap_cons, numbers_append, ← List.append_assoc]
    exact h'.counts
  stands s' hs' := by
    rcases List.mem_cons.mp hs' with rfl | hs'
    · refine (h.stands _ List.mem_cons_self).mono fun y k hy hk => ?_
      exact ⟨k, h'.others y k (ne_of_mem_carried hnodup hp hy) hk, rfl, rfl⟩
    · exact h'.stands s' hs'
  ids_eq := by
    have hc := (List.cons.inj h.ids_eq).1
    rw [Snapshot.numbered.numberedAll, List.map_cons, List.map_cons, h'.ids_eq, hc]
  refs_eq := by
    have hinner := h.refs_eq
    rw [Snapshot.numbered.numberedAll, List.flatMap_cons] at hinner ⊢
    rw [hinner, h'.refs_eq]
    simp [Snapshot.numbered.numberedAll]
  parent := by rw [h'.parent, Node.extended_extended]; rfl
  others y k hy hk := h'.others y k hy (h.others y k hy hk)

end Appends

/-- A child gets into its place after its branch has been loaded, and stands there as well. -/
theorem appends_child {s : Snapshot} (hs : Numbers s) {m : Node}
    {r : NodeId × List (NodeId × NodeId)} (hd : d.tree.Sound) (hcounts : Counts taken d)
    (hp : d.tree.node? p = some m) (hpage : s.content.kind.isPage = false)
    (hrun : (nodes s).run d = (.ok r, d')) :
    Appends taken p m [s] [r.1] r.2 d (d'.attach p r.1 m.children.length) := by
  obtain ⟨hcounts', hstands, hid, hlinks⟩ := hs d taken r d' hd hcounts hrun
  obtain ⟨hgrown, hnew⟩ : Grown d.tree d' ∧ NewRoot d.tree d' r.1 s.content.kind := by
    have h := grown_nodes s d hd
    rw [hrun] at h
    exact ⟨h.1, (h.2 _ rfl).1⟩
  obtain ⟨n, hn, hroot, hkind⟩ := hnew.exists_node
  have hwf := hgrown.sound.toWellFormed
  have hm := hgrown.old hp
  have hpc : p ≠ r.1 := fun heq => Option.some_ne_none _ (hp.symm.trans (heq ▸ hnew.new))
  have hattach := Draft.node?_attach_end hwf hm hn hroot hpc
  refine
    { sound := hgrown.sound.attach hm hn hroot (hkind.trans hpage)
        (hgrown.old.not_within hd.toWellFormed hp hnew.new)
      counts := ?counts, stands := ?stands, ids_eq := ?ids_eq, refs_eq := ?refs_eq
      parent := by rw [hattach, if_pos rfl]
      others := ?others }
  case counts => simpa using hcounts'.attach hwf hm hn hroot hpc _
  case stands =>
    intro s' hs'
    obtain rfl := List.mem_singleton.mp hs'
    refine hstands.mono fun y k hy hk => ?_
    -- The parent is older than the nodes of the child.
    have hyp : y ≠ p := ne_of_mem_carried hcounts.nodup ((hcounts.mem_iff p).mpr ⟨m, hp⟩) hy
    rw [hattach, if_neg hyp]
    by_cases hyc : y = r.1
    · obtain rfl := Option.some.inj ((hyc ▸ hn).symm.trans hk)
      exact ⟨_, if_pos hyc, rfl, rfl⟩
    · exact ⟨k, (if_neg hyc).trans hk, rfl, rfl⟩
  case ids_eq => exact congrArg (fun o => [o]) hid.symm
  case refs_eq => simpa [Snapshot.numbered.numberedAll] using hlinks
  case others =>
    intro y k hy hk
    have hyc : y ≠ r.1 := fun heq => Option.some_ne_none _ (hk.symm.trans (heq ▸ hnew.new))
    rw [hattach, if_neg hy, if_neg hyc, hgrown.old hk]

/-- Children are loaded one after the other, each after those before it. -/
theorem appends_children (ss : List Snapshot) (hss : ∀ s ∈ ss, Numbers s) :
    ∀ (d : Draft) (taken : List NodeId) (m : Node) (refs : List (NodeId × NodeId)) (d' : Draft),
      d.tree.Sound → Counts taken d → d.tree.node? p = some m →
      (nodes.children p m.children.length ss).run d = (.ok refs, d') →
      ∃ ids, Appends taken p m ss ids refs d d' := by
  induction ss with
  | nil =>
    intro d taken m refs d' hd hcounts hp hrun
    obtain ⟨hrefs, rfl⟩ := Prod.mk.inj hrun
    obtain rfl := Except.ok.inj hrefs
    exact ⟨[], .nil hd hcounts hp⟩
  | cons s ss ih =>
    intro d taken m refs d' hd hcounts hp hrun
    rw [run_children_cons] at hrun
    split at hrun
    case isTrue => exact nomatch hrun
    case isFalse hpage =>
      rcases hfirst : (nodes s).run d with ⟨_ | r, d₁⟩
      · rw [hfirst] at hrun
        exact nomatch hrun
      · have hchild := appends_child (hss s List.mem_cons_self) hd hcounts hp
          (Bool.not_eq_true _ |>.mp hpage) hfirst
        rw [hfirst] at hrun
        dsimp only at hrun
        rcases hrest : (nodes.children p (m.children.length + 1) ss).run
          (d₁.attach p r.1 m.children.length) with ⟨_ | rest, d₂⟩
        · rw [hrest] at hrun
          exact nomatch hrun
        · rw [hrest] at hrun
          obtain ⟨hrefs, rfl⟩ := Prod.mk.inj hrun
          obtain rfl := Except.ok.inj hrefs
          have hlength : m.children.length + 1 = (m.extended [r.1]).children.length := by simp
          rw [hlength] at hrest
          have hcounts' := hchild.counts
          rw [List.flatMap_singleton] at hcounts'
          obtain ⟨ids, hids⟩ := ih (fun s' hs' => hss s' (List.mem_cons_of_mem _ hs')) _ _ _ _ _
            hchild.sound hcounts' hchild.parent hrest
          exact ⟨r.1 :: ids, hchild.cons hcounts.nodup ((hcounts.mem_iff p).mpr ⟨m, hp⟩) hids⟩

/-- Loading numbers the nodes of every snapshot. -/
theorem numbers_nodes (s : Snapshot) : Numbers s := by
  induction s with
  | mk id content component ss ih =>
    intro d taken r d' hd hcounts hrun
    rw [run_nodes, hcounts.enter_eq] at hrun
    dsimp only at hrun
    obtain ⟨x, hx⟩ : ∃ x, x = number taken id := ⟨_, rfl⟩
    rw [← hx] at hrun
    have hfree : x ∉ taken := hx ▸ number_notMem taken id
    have hnone : d.tree.node? x = none := by
      by_contra hne
      exact hfree ((hcounts.mem_iff x).mpr (Option.ne_none_iff_exists'.mp hne))
    rcases hchildren : (nodes.children x 0 ss).run (d.addAt x content) with ⟨_ | refs, d₁⟩
    · rw [hchildren] at hrun
      exact nomatch hrun
    · rw [hchildren] at hrun
      obtain ⟨hr, rfl⟩ := Prod.mk.inj hrun
      obtain rfl := Except.ok.inj hr
      obtain ⟨ids, h⟩ := appends_children ss ih _ _ (Node.ofContent x content) refs _
        (hd.addAt hnone content) (hcounts.addAt hfree content)
        (by rw [Draft.node?_addAt, if_pos rfl]) hchildren
      rw [Snapshot.numbered, Snapshot.carried_mk, numbers, ← hx, Snapshot.links_mk,
        Snapshot.stands_mk, List.append_cons]
      exact ⟨h.counts, ⟨⟨x, _, rfl, h.parent, rfl, h.ids_eq⟩, h.stands⟩, rfl,
        by rw [h.refs_eq]⟩

/-- Where references have been resolved, their components were there. -/
theorem exists_of_run_references (refs : List (NodeId × NodeId)) :
    ∀ d d' : Draft, d.tree.Sound → (references refs).run d = (.ok (), d') →
      ∀ ref ∈ refs, ∃ n, d.tree.node? ref.2 = some n := by
  induction refs with
  | nil => exact fun _ _ _ _ _ h => nomatch h
  | cons ref refs ih =>
    intro d d' hd hrun
    rw [run_references_cons] at hrun
    split at hrun
    case isFalse => exact nomatch hrun
    case isTrue hc =>
      refine List.forall_mem_cons.mpr ⟨Tree.contains_iff.mp hc, fun ref' href => ?_⟩
      -- A link adds no node.
      obtain ⟨n, hn⟩ := ih _ d' (hd.link ref.1 ref.2) hrun ref' href
      rw [Draft.node?_link hd.keyed] at hn
      obtain ⟨m, hm, -⟩ := Option.map_eq_some_iff.mp hn
      exact ⟨m, hm⟩

/-- A load that succeeds adds the nodes, lets them enter their document and resolves all
references. -/
theorem exists_of_load {s : Snapshot} {root : NodeId} (h : t.load s = (.ok root, t')) :
    ∃ pending d d', (nodes s).run (Draft.start t) = (.ok (root, pending), d) ∧
      (references pending).run (enclose s.content root d) = (.ok (), d') ∧ d'.tree = t' := by
  have hload : t.load s = (((snapshot s).run (Draft.start t)).1,
    ((snapshot s).run (Draft.start t)).2.tree) := rfl
  rw [hload, run_snapshot] at h
  rcases hnodes : (nodes s).run (Draft.start t) with ⟨_ | ⟨root', pending⟩, d⟩
  · rw [hnodes] at h
    exact nomatch h
  · rw [hnodes] at h
    dsimp only at h
    rcases hrefs : (references pending).run (enclose s.content root' d) with ⟨_ | _, d'⟩
    · rw [hrefs] at h
      exact nomatch h
    · rw [hrefs] at h
      obtain ⟨hroot, htree⟩ := Prod.mk.inj h
      obtain rfl := Except.ok.inj hroot
      exact ⟨pending, d, d', rfl, hrefs, htree⟩

/-- A snapshot that has been loaded into an empty tree stands in it as it is numbered, and its nodes
refer to the components that they name. -/
theorem stands_load {s : Snapshot} {root : NodeId} (h : ({} : Tree).load s = (.ok root, t)) :
    (s.numbered []).Stands t ∧ (s.numbered []).id? = some root ∧
      ∀ s' ∈ (s.numbered []).all, ∀ x n, s'.id? = some x → t.node? x = some n →
        n.component = s'.component? := by
  obtain ⟨pending, d, d', hnodes, hrefs, rfl⟩ := exists_of_load h
  obtain ⟨hcounts, hstands, hid, rfl⟩ :=
    numbers_nodes s _ [] (root, pending) _ Tree.sound_empty .start hnodes
  obtain ⟨hgrown, hnew⟩ : Grown {} d ∧ NewRoot {} d root s.content.kind := by
    have h := grown_nodes s (Draft.start {}) Tree.sound_empty
    rw [hnodes] at h
    exact ⟨h.1, (h.2 _ rfl).1⟩
  have hids : ((s.numbered []).all.filterMap Snapshot.id?).Nodup := by
    rw [Snapshot.filterMap_id?_numbered]
    exact nodup_numbers List.nodup_nil _
  have hentered := node?_enclose hgrown hnew Tree.node?_empty
  have hsound := sound_enclose hgrown hnew
  obtain ⟨d'', hrun, hresolved⟩ := run_references _ _ hsound
    (hids.sublist (map_fst_pairs_sublist Snapshot.id? Snapshot.component? _))
    (exists_of_run_references _ _ d' hsound hrefs)
  obtain rfl : d'' = d' := (Prod.mk.inj (hrun.symm.trans hrefs)).2
  refine ⟨hstands.mono fun x n _ hn => ?_, hid, fun s' hs' x n hx hn => ?_⟩
  · -- Documents and references change neither contents nor children.
    rw [hresolved, hentered, hn, Option.map_some, Option.map_some]
    refine ⟨_, rfl, ?_, ?_⟩ <;> rw [resolved, enclosed] <;> split <;> rfl
  · rw [hresolved, hentered] at hn
    obtain ⟨_, hm, rfl⟩ := Option.map_eq_some_iff.mp hn
    obtain ⟨k, hk, rfl⟩ := Option.map_eq_some_iff.mp hm
    have hkid : (enclosed s.content.kind root k).id = x := by
      rw [← hgrown.sound.keyed hk, enclosed]
      split <;> rfl
    have hknone : (enclosed s.content.kind root k).component = none := by
      rw [← hgrown.new_component hk (Tree.node?_empty x), enclosed]
      split <;> rfl
    change ((s.numbered []).links.lookup _).or _ = _
    rw [hkid, hknone, Option.or_none]
    exact lookup_pairs hids hs' hx

end Loading

namespace Tree

/-- A loaded snapshot is the branch of its root, with the identifiers of its numbering. -/
theorem exists_branch_load {s : Snapshot} {root : NodeId} (h : ({} : Tree).load s = (.ok root, t)) :
    ∃ b, t.branch? root = some b ∧ b.Shows t ∧ Snapshot.ofBranch b = s.numbered [] := by
  have hsound : t.Sound := by simpa only [h] using sound_empty.load s
  obtain ⟨hstands, hid, hcomponents⟩ := Loading.stands_load h
  obtain ⟨n, hn⟩ : ∃ n, t.node? root = some n := by
    cases hs : s.numbered [] with
    | mk id content component ss =>
      rw [hs] at hstands hid
      obtain ⟨⟨x, n, hx, hn, -⟩, -⟩ := (Snapshot.stands_mk ..).mp hstands
      obtain rfl := Option.some.inj (hx.symm.trans hid)
      exact ⟨n, hn⟩
  obtain ⟨b, hb, -, hshows⟩ := hsound.exists_branch hn
  obtain ⟨rfl, -⟩ := hsound.branch?_eq_some_iff.mp hb
  exact ⟨b, hb, hshows, hstands.ofBranch_eq hshows hid hcomponents⟩

/-- References to shared components are resolved by identifier. A snapshot that has been loaded into
an empty tree is a branch there, with the identifiers that its nodes got one after the other. A
mirror refers to the node that has got the identifier which it names. This is the node that carries
the identifier in the snapshot if and only if no node before that one has got it, and so it is where
all the nodes before that one carry identifiers. -/
theorem componentOf_load {s : Snapshot} {root : NodeId} (h : ({} : Tree).load s = (.ok root, t))
    (hids : (s.all.filterMap Snapshot.id?).Nodup) :
    ∃ b, t.branch? root = some b ∧ Snapshot.ofBranch b = s.numbered [] ∧
      b.nodes.map Node.toContent = s.all.map Snapshot.content ∧ b.ids = numbers [] s.carried ∧
      ∀ (i j : Nat) (m n : Snapshot) (c : NodeId), s.all[i]? = some m → s.all[j]? = some n →
        m.component? = some c → n.id? = some c →
        ∃ x y, b.ids[i]? = some x ∧ b.ids[j]? = some y ∧ t.sharing.componentOf x = some c ∧
          (t.sharing.componentOf x = some y ↔ c ∉ b.ids.take j) ∧
          ((∀ k ∈ s.all.take j, k.id? ≠ none) → t.sharing.componentOf x = some y) := by
  obtain ⟨b, hb, hshows, hbranch⟩ := exists_branch_load h
  have hshares : t.Shares := by simpa only [h] using shares_empty.load sound_empty s
  have hnumbers : b.ids = numbers [] s.carried := by
    have hcarried := s.carried_numbered []
    rw [← hbranch, Snapshot.carried, Snapshot.map_all_ofBranch (g := fun n => some n.id)
      fun _ _ => rfl] at hcarried
    refine List.map_injective_iff.mpr (Option.some_injective _) (Eq.trans ?_ hcarried)
    rw [Branch.ids, List.map_map]
    rfl
  have hcontents : b.nodes.map Node.toContent = s.all.map Snapshot.content := by
    rw [← Snapshot.map_all_numbered _ (fun _ _ _ _ _ _ => rfl) s [], ← hbranch,
      Snapshot.map_all_ofBranch fun _ _ => rfl]
  have hcomponents : b.nodes.map Node.component = s.all.map Snapshot.component? := by
    rw [← Snapshot.map_all_numbered _ (fun _ _ _ _ _ _ => rfl) s [], ← hbranch,
      Snapshot.map_all_ofBranch fun _ _ => rfl]
  refine ⟨b, hb, hbranch, hcontents, hnumbers, fun i j m n c hm hn hc hid => ?_⟩
  -- The mirror is the node at the same place, and has the component that it names.
  obtain ⟨k, hk, hkc⟩ : ∃ k, b.nodes[i]? = some k ∧ k.component = some c := by
    have hget := congrArg (·[i]?) hcomponents
    simp only [List.getElem?_map, hm, Option.map_some, hc] at hget
    exact Option.map_eq_some_iff.mp hget
  have hlinked : t.sharing.componentOf k.id = some c := by
    rw [← hshares.component?_eq,
      component?_eq_of_node? (hshows.node?_of_mem (List.mem_of_getElem? hk)), hkc]
  have hnumber : b.ids[j]? = some (number (b.ids.take j) (some c)) := by
    have hj : s.carried[j]? = some (some c) := by
      rw [Snapshot.carried, List.getElem?_map, hn, Option.map_some, hid]
    rw [hnumbers, getElem?_numbers hj, take_numbers, List.nil_append]
  have hkept : t.sharing.componentOf k.id = some (number (b.ids.take j) (some c)) ↔
      c ∉ b.ids.take j := by
    rw [hlinked, Option.some_inj, eq_comm, number_some_eq_iff]
  refine ⟨k.id, _, by rw [Branch.ids, List.getElem?_map, hk, Option.map_some], hnumber, hlinked,
    hkept, fun hall => hkept.mpr ?_⟩
  -- Where those before all carry identifiers, they keep them, and theirs are others.
  have hsplit := s.all.take_append_drop j
  obtain ⟨hlt, hget⟩ := List.getElem?_eq_some_iff.mp hn
  rw [List.drop_eq_getElem_cons hlt, hget] at hsplit
  rw [← hsplit, List.filterMap_append, List.filterMap_cons_some hid] at hids
  have hcarried : s.carried.take j = ((s.all.take j).filterMap Snapshot.id?).map some := by
    rw [Snapshot.carried, ← List.map_take, List.map_filterMap_some_eq_filter_map_isSome,
      List.filter_eq_self.mpr]
    rintro _ hid'
    obtain ⟨k, hk, rfl⟩ := List.mem_map.mp hid'
    exact Option.isSome_iff_ne_none.mpr (hall k hk)
  rw [hnumbers, take_numbers, hcarried, numbers_map_some]
  · intro hmem
    exact (List.nodup_append.mp hids).2.2 c hmem c List.mem_cons_self rfl
  · exact (List.nodup_append.mp hids).1

/-- A page that carries an identifier, with a card that does, too, and a mirror of it that does
not. -/
def mirroredCard : Snapshot :=
  .mk (some 5) { kind := .page "home" 0 false } none
    [.mk (some 3) { kind := .component "card" } none [],
      .mk none { kind := .component "card" } (some 3) []]

/-- The mirror refers to the card. -/
theorem componentOf_load_mirroredCard :
    let t := (({} : Tree).load mirroredCard).2
    ∃ b, t.branch? 5 = some b ∧ b.ids = [5, 3, 6] ∧ t.sharing.componentOf 6 = some 3 := by
  intro t
  have hload : ({} : Tree).load mirroredCard = (.ok 5, t) :=
    Prod.ext (by decide : (({} : Tree).load mirroredCard).1 = .ok 5) rfl
  obtain ⟨b, hb, -, -, hids, hlinks⟩ := componentOf_load hload (by decide)
  have hnumbers : b.ids = [5, 3, 6] := hids.trans (by decide)
  obtain ⟨x, y, hx, hy, -, -, hcarried⟩ := hlinks 2 1 _ _ 3 rfl rfl rfl rfl
  rw [hnumbers] at hx hy
  obtain rfl := Option.some.inj hx
  obtain rfl := Option.some.inj hy
  exact ⟨b, hb, hnumbers, hcarried (by decide)⟩

/-- The same page without an identifier, where the card carries the first one. -/
def misnumberedCard : Snapshot :=
  .mk none { kind := .page "home" 0 false } none
    [.mk (some 1) { kind := .component "card" } none [],
      .mk none { kind := .component "card" } (some 1) []]

/-- The page gets the identifier that the card carries, and the mirror refers to the page. The node
of the card is another one. -/
theorem componentOf_load_misnumberedCard :
    let t := (({} : Tree).load misnumberedCard).2
    (({} : Tree).load misnumberedCard).1 = .ok 1 ∧
      (misnumberedCard.all.filterMap Snapshot.id?).Nodup ∧
      misnumberedCard.all.map (fun s => (s.content.kind.isComponent, s.id?, s.component?)) =
        [(false, none, none), (true, some 1, none), (true, none, some 1)] ∧
      (t.branch? 1).map (·.nodes.map fun n => (n.kind.isComponent, n.id)) =
        some [(false, 1), (true, 2), (true, 3)] ∧
      t.sharing.componentOf 3 = some 1 ∧ t.sharing.componentOf 3 ≠ some 2 := by
  decide

end Tree

end ContentTree
