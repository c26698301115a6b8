import ContentTree.Proofs.Draft.Change
import ContentTree.Snapshot.Load

/-!
# Loading snapshots

Loading adds the nodes of a snapshot one by one and puts each child into its parent as soon as the
branch of the child is complete. Whether or not it comes to an end, the old nodes stay as they are.

## Main definitions

* `Loading.Added`: a node that a draft has and a tree has not.
* `Loading.Grows`: a snapshot is loaded as new nodes below a new root.
* `Loading.enclose`: a loaded branch enters its document.
* `Loading.Links`: new nodes become mirrors of nodes that are there.

## Main results

* `Loading.grown_nodes`: the nodes of a snapshot are new ones below a new root.
* `Loading.snapshot_cases`: how far loading comes.
* `Sound.load`: a sound tree is sound after loading, also where loading failed.
* `Sound.extends_load`: loading leaves the nodes that are there as they are.
-/

namespace ContentTree

open Relation

/-- Induction over a snapshot, given the children. -/
@[elab_as_elim, induction_eliminator]
theorem Snapshot.inductionOn {motive : Snapshot → Prop} (s : Snapshot)
    (mk : ∀ id content component ss, (∀ s ∈ ss, motive s) → motive (.mk id content component ss)) :
    motive s := by
  refine @Snapshot.rec motive (fun ss => ∀ s ∈ ss, motive s) mk ?_ ?_ s
  · simp
  · intro s ss hs hss
    simpa using ⟨hs, hss⟩

namespace Loading

open Draft (Grown NewRoot)
open ContentTree.Tree (Extends Keeps KeepsKinds)

variable {α β : Type} {t : Tree} {d : Draft} {p : NodeId} {kind : Kind}

/-! ### Single steps -/

theorem run_bind (x : Loading α) (f : α → Loading β) (d : Draft) :
    (x >>= f).run d =
      match x.run d with
      | (.ok a, d') => (f a).run d'
      | (.error e, d') => (.error e, d') := by
  simp only [ExceptT.run, bind, ExceptT.bind, ExceptT.mk, StateT.bind]
  rcases x d with ⟨_ | _, _⟩ <;> rfl

/-- Adds a node under its identifier, where that is free, or under a new one. -/
def enter (id : Option NodeId) (content : Content) (d : Draft) : NodeId × Draft :=
  match id with
  | some id => if d.tree.contains id then d.add content else (id, d.addAt id content)
  | none => d.add content

theorem run_nodes (id : Option NodeId) (content : Content) (component : Option NodeId)
    (inner : List Snapshot) (d : Draft) :
    (nodes (.mk id content component inner)).run d =
      match (nodes.children (enter id content d).1 0 inner).run (enter id content d).2 with
      | (.ok refs, d') => (.ok ((enter id content d).1,
          (component.map fun c => ((enter id content d).1, c)).toList ++ refs), d')
      | (.error e, d') => (.error e, d') := by
  have h : (nodes (.mk id content component inner)).run d =
      ((nodes.children (enter id content d).1 0 inner >>= fun refs =>
        pure ((enter id content d).1,
          (component.map fun c => ((enter id content d).1, c)).toList ++ refs) : Loading _)).run
        (enter id content d).2 := by
    cases component <;> cases id <;> rfl
  rw [h, run_bind]
  rcases (nodes.children (enter id content d).1 0 inner).run (enter id content d).2 with
    ⟨_ | _, _⟩ <;> rfl

theorem run_children_cons (parent : NodeId) (index : Nat) (s : Snapshot) (ss : List Snapshot)
    (d : Draft) :
    (nodes.children parent index (s :: ss)).run d =
      if s.content.kind.isPage then (.error (.misplaced (.pageBelow parent)), d) else
      match (nodes s).run d with
      | (.ok (child, inner), d') =>
        match (nodes.children parent (index + 1) ss).run (d'.attach parent child index) with
        | (.ok refs, d'') => (.ok (inner ++ refs), d'')
        | (.error e, d'') => (.error e, d'')
      | (.error e, d') => (.error e, d') := by
  rw [nodes.children]
  cases s.content.kind.isPage
  · simp only [Bool.false_eq_true, if_false]
    change ((nodes s >>= fun _ => _ : Loading _)).run d = _
    rw [run_bind]
    rcases (nodes s).run d with ⟨_ | ⟨child, inner⟩, d'⟩
    · rfl
    · change ((nodes.children parent (index + 1) ss >>= fun _ => _ : Loading _)).run _ = _
      rw [run_bind]
      dsimp only
      rcases (nodes.children parent (index + 1) ss).run (d'.attach parent child index) with
        ⟨_ | _, _⟩ <;> rfl
  · rfl

/-! ### The nodes of a snapshot -/

theorem grown_enter (h : d.tree.Sound) (id : Option NodeId) (content : Content) :
    Grown d.tree (enter id content d).2 ∧
      NewRoot d.tree (enter id content d).2 (enter id content d).1 content.kind := by
  have hadd : Grown d.tree (d.add content).2 ∧
      NewRoot d.tree (d.add content).2 (d.add content).1 content.kind :=
    ⟨Draft.grown_addAt h (Draft.node?_nextId h) content,
      Draft.newRoot_addAt (Draft.node?_nextId h) content⟩
  cases id with
  | none => exact hadd
  | some id =>
    simp only [enter]
    split
    · exact hadd
    · next hfree =>
      have hnone : d.tree.node? id = none := by
        rw [Tree.contains_eq, Bool.not_eq_true, Option.isSome_eq_false_iff,
          Option.isNone_iff_eq_none] at hfree
        exact hfree
      exact ⟨Draft.grown_addAt h hnone content, Draft.newRoot_addAt hnone content⟩

/-- A node that a draft has and a tree has not. -/
def Added (t : Tree) (d : Draft) (id : NodeId) : Prop :=
  t.node? id = none ∧ ∃ n, d.tree.node? id = some n

theorem Added.mono {d' : Draft} (h : Added t d p) (hkeep : KeepsKinds d.tree d'.tree) :
    Added t d' p := by
  obtain ⟨hnew, n, hn⟩ := h
  exact ⟨hnew, (hkeep hn).imp fun _ => And.left⟩

/-- A snapshot is loaded as new nodes below a new root, and a failure leaves new nodes at most.
Whatever is to refer to a component is one of the new nodes. -/
def Grows (s : Snapshot) : Prop :=
  ∀ d : Draft, d.tree.Sound → Grown d.tree ((nodes s).run d).2 ∧
    ∀ r, ((nodes s).run d).1 = .ok r →
      NewRoot d.tree ((nodes s).run d).2 r.1 s.content.kind ∧
        ∀ ref ∈ r.2, Added d.tree ((nodes s).run d).2 ref.1

theorem grown_children (ht : t.WellFormed) (ss : List Snapshot) (hss : ∀ s ∈ ss, Grows s) :
    ∀ (index : Nat) (d : Draft), Grown t d → NewRoot t d p kind →
      Grown t ((nodes.children p index ss).run d).2 ∧
        KeepsKinds d.tree ((nodes.children p index ss).run d).2.tree ∧
        ∀ r, ((nodes.children p index ss).run d).1 = .ok r →
          NewRoot t ((nodes.children p index ss).run d).2 p kind ∧
            ∀ ref ∈ r, Added t ((nodes.children p index ss).run d).2 ref.1 := by
  induction ss with
  | nil =>
    refine fun _ d hd hp => ⟨hd, .refl _, fun r hr => ⟨hp, fun ref href => ?_⟩⟩
    obtain rfl : [] = r := Except.ok.inj hr
    exact nomatch href
  | cons s ss ih =>
    intro index d hd hp
    rw [run_children_cons]
    split
    · exact ⟨hd, .refl _, fun _ h => nomatch h⟩
    · next hpage =>
      obtain ⟨hgrown, hnew⟩ := hss s List.mem_cons_self d hd.sound
      generalize (nodes s).run d = r at hgrown hnew ⊢
      obtain ⟨_ | ⟨child, inner⟩, d'⟩ := r
      · exact ⟨hd.trans hgrown, .of_extends hgrown.old, fun _ h => nomatch h⟩
      · -- The child is complete, and goes in before the rest is loaded.
        obtain ⟨hchild, hinner⟩ := hnew _ rfl
        obtain ⟨m, hm, -⟩ := hp.exists_node
        have hmoved : KeepsKinds _ _ := .of_relocated
          (hgrown.relocated_attach hd.sound.toWellFormed hm hchild index)
        obtain ⟨hd', hp'⟩ := hd.attach hgrown hp hchild (Bool.not_eq_true _ |>.mp hpage) index ht
        have hrest := ih (fun s hs => hss s (List.mem_cons_of_mem _ hs)) (index + 1) _ hd' hp'
        dsimp only
        generalize (nodes.children p (index + 1) ss).run (d'.attach p child index) = r at hrest ⊢
        obtain ⟨hd'', hkeep, hrest⟩ := hrest
        have hkeep' := (Keeps.of_extends hgrown.old).trans (hmoved.trans hkeep)
        obtain ⟨_ | refs, d''⟩ := r
        · exact ⟨hd'', hkeep', fun _ h => nomatch h⟩
        · obtain ⟨hp'', hrefs⟩ := hrest _ rfl
          refine ⟨hd'', hkeep', fun r hr => ⟨hp'', fun ref href => ?_⟩⟩
          obtain rfl := Except.ok.inj hr
          rcases List.mem_append.mp href with href | href
          · obtain ⟨hnone, hadded⟩ := (hinner ref href).mono (hmoved.trans hkeep)
            exact ⟨hd.none_of_none hnone, hadded⟩
          · exact hrefs ref href

/-- The nodes of a snapshot are loaded as new ones below a new root. -/
theorem grown_nodes (s : Snapshot) : Grows s := by
  induction s with
  | mk id content component ss ih =>
    intro d hd
    obtain ⟨hgrown, hnew⟩ := grown_enter hd id content
    have hchildren := grown_children hd.toWellFormed ss ih 0 _ hgrown hnew
    rw [run_nodes]
    generalize (nodes.children (enter id content d).1 0 ss).run (enter id content d).2 = r
      at hchildren ⊢
    obtain ⟨hgrown', -, hchildren⟩ := hchildren
    obtain ⟨_ | refs, d'⟩ := r
    · exact ⟨hgrown', fun _ h => nomatch h⟩
    · obtain ⟨hnew', hrefs⟩ := hchildren _ rfl
      refine ⟨hgrown', fun r hr => ?_⟩
      obtain rfl := Except.ok.inj hr
      refine ⟨hnew', fun ref href => ?_⟩
      rcases List.mem_append.mp href with href | href
      · -- The reference of the root itself.
        obtain ⟨c, -, rfl⟩ := Option.map_eq_some_iff.mp (Option.mem_toList.mp href)
        exact ⟨hnew'.new, hnew'.exists_node.imp fun _ => And.left⟩
      · exact hrefs ref href

/-! ### References and documents -/

/-- What becomes of a loaded branch before its references: it enters its document. -/
def enclose (content : Content) (root : NodeId) (d : Draft) : Draft :=
  match content.kind with
  | .page _ _ shadow => (if shadow then d.setShadow root else d).setDocument root (some root)
  | _ => d.setDocument root none

theorem run_references_cons (m c : NodeId) (refs : List (NodeId × NodeId)) (d : Draft) :
    (references ((m, c) :: refs)).run d =
      if d.tree.contains c then (references refs).run (d.link m c)
      else (.error (.unknownNode c), d) := by
  rw [references]
  change ((if !d.tree.contains c then _ else _ : Loading _)).run d = _
  cases d.tree.contains c <;> rfl

theorem run_snapshot (s : Snapshot) (d : Draft) :
    (snapshot s).run d =
      match (nodes s).run d with
      | (.ok (root, pending), d') =>
        match (references pending).run (enclose s.content root d') with
        | (.ok _, d'') => (.ok root, d'')
        | (.error e, d'') => (.error e, d'')
      | (.error e, d') => (.error e, d') := by
  rw [snapshot, run_bind]
  rcases (nodes s).run d with ⟨_ | ⟨root, pending⟩, d'⟩
  · rfl
  · have h : ∀ d'', ((references pending >>= fun _ => pure root : Loading _)).run d'' =
        match (references pending).run d'' with
        | (.ok _, d'') => (.ok root, d'')
        | (.error e, d'') => (.error e, d'') := by
      intro d''
      rw [run_bind]
      rcases (references pending).run d'' with ⟨_ | _, _⟩ <;> rfl
    dsimp only
    rw [← h, enclose]
    cases s.content.kind with
    | page name version shadow => cases shadow <;> rfl
    | _ => rfl

/-- Any number of links, each from a node that a tree does not have to one that is there. -/
def Links (t : Tree) : Draft → Draft → Prop := ReflTransGen fun d d' =>
  ∃ m c, Added t d m ∧ d.tree.contains c = true ∧ d' = d.link m c

theorem links_references (refs : List (NodeId × NodeId)) : ∀ d : Draft, d.tree.Sound →
    (∀ ref ∈ refs, Added t d ref.1) → Links t d ((references refs).run d).2 := by
  induction refs with
  | nil => exact fun _ _ _ => .refl
  | cons r refs ih =>
    intro d hd hrefs
    rw [run_references_cons]
    split
    · next hcomponent =>
      refine .head ⟨_, _, hrefs r List.mem_cons_self, hcomponent, rfl⟩
        (ih _ (hd.link _ _) fun ref href => ?_)
      exact (hrefs ref (List.mem_cons_of_mem _ href)).mono (.link hd.keyed _ _)
    · exact .refl

theorem sound_enclose {d' : Draft} {content : Content} {root : NodeId} (hd : Grown t d')
    (hroot : NewRoot t d' root content.kind) : (enclose content root d').tree.Sound := by
  rw [enclose]
  split
  · next name version shadow hkind =>
    refine Tree.Sound.setDocument ?_ root _
    split
    · obtain ⟨n, hn, -, hpage⟩ := hroot.exists_node
      refine ⟨hd.sound.toWellFormed.of_nodes_eq rfl, hd.sound.id_le_lastId, fun hs => ?_⟩
      obtain rfl := Option.some.inj hs
      exact ⟨n, hn, by rw [hpage, hkind]; rfl⟩
    · exact hd.sound
  · exact hd.sound.setDocument root none

theorem keepsKinds_enclose {d' : Draft} {content : Content} {root : NodeId}
    (hd : d'.tree.WellFormed) : KeepsKinds d'.tree (enclose content root d').tree := by
  have hset : ∀ d : Draft, d.tree.nodes = d'.tree.nodes → ∀ document,
      KeepsKinds d'.tree (d.setDocument root document).tree := by
    intro d hnodes document id n hn
    have hn' : d.tree.node? id = some n := by rw [Tree.node?, hnodes]; exact hn
    exact Keeps.of_relocated
      (Draft.relocated_setDocument (hd.of_nodes_eq hnodes) root document) hn'
  rw [enclose]
  split
  · refine hset _ ?_ _
    split <;> rfl
  · exact hset _ rfl _

/-- Where a new branch enters its document, the old nodes are not concerned. -/
theorem extends_enclose {d' : Draft} {content : Content} {root : NodeId} (hd : Grown t d')
    (hroot : NewRoot t d' root content.kind) (ht : t.WellFormed) :
    Extends t (enclose content root d').tree := by
  have hset : ∀ d : Draft, d.tree.nodes = d'.tree.nodes → ∀ document,
      Extends t (d.setDocument root document).tree := by
    intro d hnodes document x n hn
    have hwf := hd.sound.toWellFormed.of_nodes_eq hnodes
    have hold : Extends t d.tree := fun y m hm => by rw [Tree.node?, hnodes]; exact hd.old hm
    -- An old node does not stand in the branch of a new root.
    have hout : n.id ∉ d.tree.branchIds root := by
      rw [ht.keyed hn, hwf.mem_branchIds_iff (hold hn)]
      exact hold.not_within ht hn hroot.new
    rw [(Draft.rewritten_setDocument hwf.keyed root document).node?_of_some (hold hn)]
    simp [Draft.documented, hout]
  rw [enclose]
  split
  · refine hset _ ?_ _
    split <;> rfl
  · exact hset _ rfl _

/-- Loading ends among the nodes, which have been added in part then, or it adds all nodes, lets
them enter their document, and links some of them. -/
theorem snapshot_cases (hd : d.tree.Sound) (s : Snapshot) :
    ((∃ e, ((snapshot s).run d).1 = .error e) ∧ Grown d.tree ((snapshot s).run d).2) ∨
      ∃ d' root, Grown d.tree d' ∧ NewRoot d.tree d' root s.content.kind ∧
        Links d.tree (enclose s.content root d') ((snapshot s).run d).2 := by
  obtain ⟨hnodes, hnew⟩ := grown_nodes s d hd
  rw [run_snapshot]
  generalize (nodes s).run d = r at hnodes hnew ⊢
  obtain ⟨e | ⟨root, pending⟩, d'⟩ := r
  · exact .inl ⟨⟨e, rfl⟩, hnodes⟩
  · obtain ⟨hroot, hrefs⟩ := hnew _ rfl
    refine .inr ⟨d', root, hnodes, hroot, ?_⟩
    have h := links_references pending (enclose s.content root d') (sound_enclose hnodes hroot)
      fun ref href => (hrefs ref href).mono (keepsKinds_enclose hnodes.sound.toWellFormed)
    dsimp only
    generalize (references pending).run (enclose s.content root d') = r at h ⊢
    obtain ⟨_ | _, _⟩ := r <;> exact h

theorem Links.sound {d' : Draft} (h : Links t d d') (hd : d.tree.Sound) : d'.tree.Sound := by
  induction h with
  | refl => exact hd
  | tail _ hstep ih =>
    obtain ⟨m, c, -, -, rfl⟩ := hstep
    exact ih.link m c

/-- Links concern new nodes only. -/
theorem Links.extends {d' : Draft} (h : Links t d d') (hd : d.tree.Sound)
    (hext : Extends t d.tree) : Extends t d'.tree := by
  induction h with
  | refl => exact hext
  | tail hsteps hstep ih =>
    obtain ⟨m, c, ⟨hnew, -⟩, -, rfl⟩ := hstep
    -- Only the mirror is written, and the tree has no node of its identifier.
    have hkeyed := (Links.sound hsteps hd).keyed
    intro x n hn
    have hx : n.id ≠ m := by
      rw [hkeyed (ih hn)]
      rintro rfl
      exact Option.some_ne_none _ (hn.symm.trans hnew)
    rw [Draft.node?_link hkeyed, ih hn, Option.map_some, Draft.at_, if_neg hx]

end Loading

/-- A sound tree is sound after loading, also where loading failed. -/
theorem Tree.Sound.load {t : Tree} (h : t.Sound) (s : Snapshot) : (t.load s).2.Sound := by
  rcases Loading.snapshot_cases (d := Draft.start t) h s with
    ⟨-, hd⟩ | ⟨d', root, hd, hroot, hlinks⟩
  · exact hd.sound
  · exact hlinks.sound (Loading.sound_enclose hd hroot)

/-- Loading leaves the nodes that are there as they are, also where it fails. -/
theorem Tree.Sound.extends_load {t : Tree} (h : t.Sound) (s : Snapshot) :
    Tree.Extends t (t.load s).2 := by
  rcases Loading.snapshot_cases (d := Draft.start t) h s with
    ⟨-, hd⟩ | ⟨d', root, hd, hroot, hlinks⟩
  · exact hd.old
  · exact hlinks.extends (Loading.sound_enclose hd hroot)
      (Loading.extends_enclose hd hroot h.toWellFormed)

end ContentTree
