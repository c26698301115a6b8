import ContentTree.Proofs.Draft.Sharing
import ContentTree.Proofs.Session.Synced

/-!
# Components in reachable trees

The tables of mirrors and components and the components that the nodes carry tell the same story in
whatever can be seen of a tree. No operation lets a node be mirror and component at once where there
was none before; only a loaded snapshot can bring such a node in.

## Main results

* `Visible.shares`: tables and nodes agree in whatever can be seen of a tree.
* `Visible.components_agree`: the same in terms of mirrors and components, and what operations keep.
-/

namespace ContentTree.Tree

variable {t : Tree} {counts : Loads} {α : Type} {edit : Edit α} {editor : Editor}

theorem Visible.sound (h : t.Visible counts) : t.Sound :=
  h.elim (fun _ h => h.sound) fun _ _ _ h hch => hch.sound h.sound

theorem Reachable.shares (h : t.Reachable counts) : t.Shares := by
  induction h with
  | empty => exact shares_empty
  | load h s _ ih => exact ih.load h.sound s
  | run h editor hedit store ih =>
    refine run_induction h.sound editor hedit store ih (fun _ hch => hch.shares h.sound ih)
      fun d page hd hs => ?_
    exact hs.of_same (Draft.sameSharing_bumpVersion hd.keyed page) (.bumpVersion hd.keyed page)

theorem Visible.shares (h : t.Visible counts) : t.Shares :=
  h.elim (fun _ h => h.shares) fun _ _ _ h hch => hch.shares h.sound h.shares

/-- A transaction keeps mirrors and components apart, however it ends. -/
theorem Bipartite.run (hb : t.Bipartite) (h : t.Sound) (hs : t.Shares) (editor : Editor)
    (hedit : edit.Composed) (store : Store) :
    (Session.run editor edit ⟨t, store⟩).2.tree.Bipartite := by
  refine (run_induction (P := fun t => t.Shares ∧ t.Bipartite) h editor hedit store ⟨hs, hb⟩
    (fun d hch => ⟨hch.shares h hs, hch.bipartite h hs hb⟩) fun d page hd hd' => ?_).2
  have hkeep : KeepsKinds d.tree (d.bumpVersion page).tree := .bumpVersion hd.keyed page
  have hsame := Draft.sameSharing_bumpVersion hd.keyed page
  have hs' := hd'.1.of_same hsame hkeep
  exact ⟨hs', hd'.2.of_fewer hd'.1 hs' hkeep fun hm => hsame.sharing ▸ hm⟩

/-- In whatever can be seen of a tree, after any loads and transactions and within a transaction, a
node carries a component if and only if the one table says so, and that if and only if the other
does; components exist, and none has an entry without mirrors. Where nobody is mirror and component
at once, nobody mirrors itself, and mirrors are of the kind of their components, this is still so
after any operations, be it within a transaction or after one. -/
theorem Visible.components_agree (h : t.Visible counts) :
    (∀ m c, ((∃ n, t.node? m = some n ∧ n.component = some c) ↔
        t.sharing.componentOf m = some c) ∧
      (t.sharing.componentOf m = some c ↔ m ∈ t.sharing.mirrorsOf c) ∧
      (t.sharing.componentOf m = some c → ∃ k, t.node? c = some k)) ∧
    (∀ c ∈ t.sharing.mirrors, t.sharing.mirrorsOf c ≠ []) ∧
    ∀ {α : Type} {edit : Edit α}, edit.Composed → t.Bipartite → ∀ editor : Editor,
      (∀ d : Draft, d.tree = t → (edit.run editor d).2.tree.Bipartite) ∧
      ∀ store, (Session.run editor edit ⟨t, store⟩).2.tree.Bipartite := by
  have hs := h.shares
  refine ⟨fun m c => ⟨?carries, ?mirrors, hs.exists_component⟩, fun c hc => ?nonempty,
    fun hedit hb editor => ⟨?within, hb.run h.sound hs editor hedit⟩⟩
  case carries =>
    rw [← hs.component?_eq, component?, Option.bind_eq_some_iff]
  case mirrors =>
    rw [Sharing.mem_mirrorsOf, hs.consistent.mem_iff]
  case nonempty => exact hs.consistent.mirrorsOf_ne_nil hc
  case within =>
    rintro d rfl
    exact (hedit.changes editor d h.sound).bipartite h.sound hs hb

/-- The box that has become shared mirrors its copy, and nobody else mirrors anything. -/
theorem components_agree_sharedBox :
    Session.sharedBox.sharing.componentOf 2 = some 7 ∧
    (∃ n, Session.sharedBox.node? 2 = some n ∧ n.component = some 7) ∧
    2 ∈ Session.sharedBox.sharing.mirrorsOf 7 ∧ Session.sharedBox.Bipartite := by
  obtain ⟨htables, -, -⟩ := Visible.components_agree (.kept Session.reachable_sharedBox)
  have hcomponent : Session.sharedBox.sharing.componentOf 2 = some 7 := by decide
  refine ⟨hcomponent, (htables 2 7).1.mpr hcomponent, (htables 2 7).2.1.mp hcomponent, ?_⟩
  have hboxes : (({} : Tree).load Session.twoBoxes).2.Reachable .successful :=
    .load .empty Session.twoBoxes ⟨1, by decide⟩
  have hloaded : (((({} : Tree).load Session.twoBoxes).2.load
      (.mk (some 5) { kind := .fragment } none [])).2).Reachable .successful :=
    .load hboxes _ ⟨5, by decide⟩
  obtain ⟨-, -, hkept⟩ := Visible.components_agree (.kept hloaded)
  exact (hkept (.share 2) (bipartite_of_sharing_eq rfl) _).2 {}

end ContentTree.Tree
