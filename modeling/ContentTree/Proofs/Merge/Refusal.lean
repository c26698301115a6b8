import ContentTree.Proofs.Merge.Converge
import ContentTree.Proofs.Session.Synced

/-!
# What can keep a merge from succeeding

Where everybody may write, the operations of a merge are carried out or skipped, whatever nodes are
synced. Only a move is refused sometimes: it looks at the new parent of the node, but not at the
parent that the node leaves.

Through deletions, creations and moves the stage is kept, as long as none is refused; updates need
only that the kinds of all nodes stay the same.

## Main definitions

* `Stops`: operations are carried out up to one that is refused.
* `Plan.TakesFrom`: a plan moves a child of a node to another parent.

## Main results

* `Apply.run_move_or_denied`: what becomes of a move.
* `Ground.stage_of_deletes`, `Ground.stage_of_creates`, `Ground.stage_of_moves`: what the operations
  of a plan lead to where some of them are skipped.
* `Session.merge_ok_or_denied`: a merge succeeds, or takes a child from a synced node.
-/

namespace ContentTree

open ContentTree.Tree (Puts)

namespace Edit

variable {e : Editor} {d : Draft} {p c a : NodeId} {n : Node} (hn : d.tree.node? c = some n)
  (hfragment : n.kind.isFragment = false)
include hn hfragment

theorem run_insertBefore_or :
    (∃ d', (insertBefore p c (some a)).run e d = (.ok c, d') ∧
      (d' = d ∨ a ≠ c ∧ e.Admits d.tree p c (some a) ∧ d' = d.place p c (some a))) ∨
    ∃ err, (insertBefore p c (some a)).run e d = (.error err, d) := by
  rw [insertBefore, run_bind, run_insert_eq hn hfragment]
  cases hadmits : e.admits d.tree p c (some a) with
  | error err => exact .inr ⟨err, rfl⟩
  | ok _ =>
    refine .inl ⟨_, rfl, ?_⟩
    split
    · next hne =>
      exact .inr ⟨fun heq => hne (congrArg some heq.symm), Editor.admits_eq_ok.mp hadmits, rfl⟩
    · exact .inl rfl

/-- Where only a synced old parent can be in the way, a node is put at the end, or else the old
parent is named. -/
theorem run_append_or (h : e.permissive.Admits d.tree p c none) (hunlocked : e.Unlocked d.tree p) :
    (append p c).run e d = (.ok c, d.place p c none) ∨
    ∃ z, d.tree.Under c z ∧ z ≠ p ∧ ¬ e.Unlocked d.tree z ∧
      (append p c).run e d = (.error (.denied z .synced), d) := by
  by_cases hold : ∀ q, d.tree.Under c q → q ≠ p → e.Unlocked d.tree q
  · exact .inl (run_append (h.of_permissive hunlocked hold) hn hfragment)
  · simp only [not_forall] at hold
    obtain ⟨z, hz, hne, hlocked⟩ := hold
    refine .inr ⟨z, hz, hne, hlocked, ?_⟩
    rw [append, run_bind, run_insert_eq hn hfragment,
      Editor.admits_eq_denied h hunlocked hz hne hlocked]

end Edit

namespace Merge

open ContentTree.Edit (run_insertBefore_or run_append_or)

namespace Apply

variable {e : Editor} {d : Draft} {p c : NodeId} {n : Node}

/-- The search for a place changes nothing, or puts the node before a child of the parent. -/
theorem run_climb (hn : d.tree.node? c = some n) (hfragment : n.kind.isFragment = false)
    (attempts : Nat) : ∀ anchor, ∃ placed d',
      (climb p c attempts anchor).run e d = (.ok placed, d') ∧
      (d' = d ∨ placed = true ∧
        ∃ a, a ≠ c ∧ e.Admits d.tree p c (some a) ∧ d' = d.place p c (some a)) := by
  induction attempts with
  | zero => exact fun _ => ⟨false, d, rfl, .inl rfl⟩
  | succ attempts ih =>
    intro anchor
    cases anchor with
    | none => exact ⟨false, d, rfl, .inl rfl⟩
    | some a =>
      rcases run_insertBefore_or (e := e) (p := p) (a := a) hn hfragment with
        ⟨d', hrun, hd'⟩ | ⟨err, hrun⟩
      · refine ⟨true, d', ?_, hd'.imp_right fun h => ⟨rfl, a, h⟩⟩
        simp only [climb, Edit.run_bind, Edit.run_tryCatch, hrun, Edit.run_pure, if_true]
      · -- Nothing has changed, and the search goes on above.
        obtain ⟨placed, d', hrest, hd'⟩ := ih (d.tree.parent? a)
        refine ⟨placed, d', ?_, hd'⟩
        simp only [climb, Edit.run_bind, Edit.run_tryCatch, hrun, Edit.run_pure, Bool.false_eq_true,
          if_false, Edit.run_tree, hrest]

/-- A node is put into place or stays where it is, or else it stands below a synced node and is to
leave it. -/
theorem run_move_or_denied (settings : Settings) (before : Option NodeId)
    (ha : e.access = .unrestricted) (ht : d.tree.Sound)
    (hm : Draft.Movable d.tree p c)
    (haccepts : ∀ n, d.tree.node? p = some n → n.kind.acceptsChildren = true)
    (hfragment : ∀ n, d.tree.node? c = some n → n.kind.isFragment = false)
    (hdocument : ∀ a b, d.tree.document? p = some a → d.tree.document? c = some b → a = b) :
    (∃ outcome d', (move settings ⟨p, before⟩ c).run e d = (.ok outcome, d') ∧
      (d' = d ∨ ∃ reference, Puts d.tree d'.tree p c reference)) ∨
    ∃ z, d.tree.Under c z ∧ z ≠ p ∧ ¬ e.Unlocked d.tree z ∧
      (move settings ⟨p, before⟩ c).run e d = (.error (.denied z .synced), d) := by
  obtain ⟨n, hn, -⟩ := hm.exists_child
  cases hsynced : d.tree.isSynced p with
  | true =>
    refine .inl ⟨.skipped .syncedParent, d, ?_, .inl rfl⟩
    simp only [move, Edit.run_bind, Edit.run_tree, hsynced, if_true, Edit.run_pure]
  | false =>
    cases hstands : standsAt d.tree ⟨p, before⟩ c with
    | true =>
      refine .inl ⟨.skipped .inPlace, d, ?_, .inl rfl⟩
      simp only [move, Edit.run_bind, Edit.run_tree, hsynced, Bool.false_eq_true, if_false, hstands,
        if_true, Edit.run_pure]
    | false =>
      obtain ⟨placed, d', hclimb, hd'⟩ :=
        run_climb (e := e) (p := p) hn (hfragment n hn) settings.maxAscent before
      cases placed with
      | true =>
        refine .inl ⟨.applied, d', ?_, hd'.imp_right ?_⟩
        · simp only [move, Edit.run_bind, Edit.run_tree, hsynced, Bool.false_eq_true, if_false,
            hstands, hclimb, Bool.not_true, Edit.run_pure]
        · rintro ⟨-, a, hne, hadmits, rfl⟩
          refine ⟨some a, Tree.puts_place ht hm fun f hf => ?_⟩
          obtain rfl := Option.some.inj hf
          exact ⟨hadmits.reference_under _ rfl, hne⟩
      | false =>
        -- The search has changed nothing, and only the old parent can still be in the way.
        obtain rfl : d' = d := hd'.resolve_right fun h => Bool.false_ne_true h.1
        have hadmits : e.permissive.Admits d'.tree p c none :=
          Editor.admits_of_movable (e := e.permissive) ha ht.toWellFormed hm haccepts hdocument
            (fun f hf => absurd hf.symm (Option.some_ne_none f)) (.inl rfl) fun _ _ _ => .inl rfl
        rcases run_append_or hn (hfragment n hn) hadmits (.inr hsynced) with
          hrun | ⟨z, hz, hne, hlocked, hrun⟩
        · refine .inl ⟨.applied, _, ?_, .inr ⟨none, Tree.puts_place ht hm fun f hf =>
            absurd hf.symm (Option.some_ne_none f)⟩⟩
          simp only [move, Edit.run_bind, Edit.run_tree, hsynced, Bool.false_eq_true, if_false,
            hstands, hclimb, Bool.not_false, if_true, hrun, Edit.run_pure]
        · refine .inr ⟨z, hz, hne, hlocked, ?_⟩
          simp only [move, Edit.run_bind, Edit.run_tree, hsynced, Bool.false_eq_true, if_false,
            hstands, hclimb, Bool.not_false, if_true, hrun]

/-- A shared box does not let go of what is in it where another box is to take it. -/
example : ((move {} ⟨4, none⟩ 3).run ⟨.anonymous, .unrestricted, .reject⟩
    (Draft.start Session.sharedBox)).1 = .error (.denied 2 .synced) := by decide

end Apply

variable {settings : Settings} {editor : Editor} {os os' : List Operation} {index index' : KeyIndex}
  {d d' : Draft} {err : TreeError} {t : Tree} {root x : NodeId} {pairing q c : Pairing}
  {ps rs : List Pairing} {claimed : Pairing.Claimed} {e : Branch}

/-! ### Operations one after the other -/

/-- Operations are carried out up to one that is refused. -/
inductive Stops (settings : Settings) (editor : Editor) :
    List Operation → KeyIndex → Draft → TreeError → Prop
  | here {o : Operation} {os : List Operation} {index : KeyIndex} {d d' : Draft} {err : TreeError}
    (run : (Apply.operation settings index o).run editor d = (.error err, d')) :
    Stops settings editor (o :: os) index d err
  | later {o : Operation} {os : List Operation} {index index' : KeyIndex} {d d' : Draft}
    {outcome : Outcome} {err : TreeError}
    (run : (Apply.operation settings index o).run editor d = (.ok (outcome, index'), d'))
    (rest : Stops settings editor os index' d' err) : Stops settings editor (o :: os) index d err

theorem Stops.append (h : Stops settings editor os index d err) (os' : List Operation) :
    Stops settings editor (os ++ os') index d err := by
  induction h with
  | here run => exact .here run
  | later run _ ih => exact .later run ih

theorem Carries.append_stops (h : Carries settings editor os index d index' d')
    (h' : Stops settings editor os' index' d' err) :
    Stops settings editor (os ++ os') index d err := by
  induction h with
  | nil => exact h'
  | cons run _ ih => exact .later run (ih h')

theorem Stops.run_operations (h : Stops settings editor os index d err) :
    ∃ d', (Apply.operations settings index os).run editor d = (.error err, d') := by
  induction h with
  | @here o os index d d' err run =>
    exact ⟨d', by simp only [Apply.operations, Edit.run_bind, run]⟩
  | later run _ ih =>
    obtain ⟨d', hrest⟩ := ih
    exact ⟨d', by simp only [Apply.operations, Edit.run_bind, run, hrest]⟩

/-- Every operation is accounted for in the report. -/
theorem Apply.map_fst_of_run_operations {entries : List (Operation × Outcome)}
    (h : (Apply.operations settings index os).run editor d = (.ok entries, d')) :
    entries.map Prod.fst = os := by
  induction os generalizing index d d' entries with
  | nil =>
    obtain rfl := Except.ok.inj (Prod.mk.inj h).1
    rfl
  | cons o os ih =>
    simp only [Apply.operations, Edit.run_bind] at h
    split at h
    · next hrest =>
      split at h
      · next hentries =>
        obtain rfl := Except.ok.inj (Prod.mk.inj h).1
        rw [List.map_cons, ih hentries]
      · cases (Prod.mk.inj h).1
    · cases (Prod.mk.inj h).1

/-- Where no operation is refused, all of them are carried out, and what each of them preserves
holds in the end. What holds may depend on the operations that are still to come. -/
theorem Carries.of_step (Holds : List Operation → KeyIndex → Draft → Prop)
    (hstep : ∀ o ∈ os, ∀ rest index d, Holds (o :: rest) index d → ∃ outcome index' d',
      (Apply.operation settings index o).run editor d = (.ok (outcome, index'), d') ∧
        Holds rest index' d')
    (h : Holds os index d) :
    ∃ index' d', Carries settings editor os index d index' d' ∧ Holds [] index' d' := by
  induction os generalizing index d with
  | nil => exact ⟨index, d, .nil, h⟩
  | cons o os ih =>
    rw [List.forall_mem_cons] at hstep
    obtain ⟨outcome, index₁, d₁, hrun, h₁⟩ := hstep.1 os index d h
    obtain ⟨index₂, d₂, hcarries, h₂⟩ := ih hstep.2 h₁
    exact ⟨index₂, d₂, .cons hrun hcarries, h₂⟩

/-- A plan moves a child of a node to another parent. -/
def Plan.TakesFrom (plan : Plan) (t : Tree) (z : NodeId) : Prop :=
  ∃ destination key x, .move destination key (some x) ∈ plan.operations ∧ t.Under x z ∧
    plan.index[destination.parent]? ≠ some z

namespace Ground

variable (settings) (hset : Ground t root claimed pairing editor)
include hset

/-! ### Deletions -/

/-- A node is deleted, unless it stands below a synced node. -/
theorem run_delete (index : KeyIndex) {gone : List NodeId} (h : Trimmed t d.tree gone)
    (hx : t.Below x root) :
    ∃ outcome d' gone', (Apply.operation settings index (.delete x)).run editor d =
        (.ok (outcome, index), d') ∧
      Trimmed t d'.tree gone' ∧ gone' ⊆ x :: gone := by
  obtain ⟨y, hxy, -⟩ := hx.exists_under
  obtain ⟨n, hn, -⟩ := hxy.exists_node
  obtain ⟨m, hm, hcontent⟩ := h.old hn
  cases hfree : Apply.belowSynced d.tree x with
  | true =>
    refine ⟨.skipped .syncedParent, d, gone, ?_, h, List.subset_cons_self x gone⟩
    have hcontains : d.tree.contains x = true := Tree.contains_iff.mpr ⟨m, hm⟩
    simp only [Apply.operation, Edit.run_bind, Edit.run_tree, hcontains, Bool.not_true,
      Bool.false_eq_true, if_false, hfree, if_true, Edit.run_pure]
  | false =>
    have hpage : m.kind.isPage = false := by
      rw [show m.kind = n.kind from congrArg Content.kind hcontent]
      exact hset.wellFormed.not_page_of_under hxy hn
    exact ⟨.applied, d.discard x, x :: gone,
      Apply.run_delete settings hset.access h.sound.toWellFormed hm hpage hfree,
      h.discard hset.wellFormed x, List.Subset.refl _⟩

theorem carries_deletes_or_skips (index : KeyIndex) (ids : List NodeId) :
    ∀ gone d, Trimmed t d.tree gone → (∀ x ∈ ids, t.Below x root) →
    ∃ d' gone', Carries settings editor (ids.map .delete) index d index d' ∧
      Trimmed t d'.tree gone' ∧ gone' ⊆ ids ++ gone := by
  induction ids with
  | nil => exact fun gone d h _ => ⟨d, gone, .nil, h, List.Subset.refl gone⟩
  | cons x ids ih =>
    intro gone d h hids
    rw [List.forall_mem_cons] at hids
    obtain ⟨outcome, d₁, gone₁, hrun, h₁, hsubset₁⟩ := hset.run_delete settings index h hids.1
    obtain ⟨d₂, gone₂, hcarries, h₂, hsubset₂⟩ := ih gone₁ d₁ h₁ hids.2
    refine ⟨d₂, gone₂, .cons hrun hcarries, h₂, fun y hy => ?_⟩
    rcases List.mem_append.mp (hsubset₂ hy) with hy | hy
    · exact List.mem_cons_of_mem _ (List.mem_append_left _ hy)
    · exact (List.mem_cons.mp (hsubset₁ hy)).elim (fun heq => heq ▸ List.mem_cons_self)
        fun hy => List.mem_cons_of_mem _ (List.mem_append_right _ hy)

/-- The deletions of a plan set the stage. -/
theorem stage_of_deletes (ht : t.Sound) (hc : t.Coherent) (he : pairing.existing? = some e)
    (hindex : ∀ q ∈ pairing.items, index[q.key]? = q.partner?) :
    ∃ d', Carries settings editor (Plan.deletes claimed e) index (Draft.start t) index d' ∧
      Stage t root pairing index d'.tree := by
  obtain ⟨d', gone, hcarries, htrimmed, hsubset⟩ := hset.carries_deletes_or_skips settings index
    ((Plan.unpaired claimed e).mergeSort (· ≤ ·)) [] (Draft.start t) (.refl ht) fun x hx =>
      (below_root_of_mem_unpaired hset.wellFormed hset.fits he (List.mem_mergeSort.mp hx)).2
  refine ⟨d', hcarries, stage_of_trimmed hset.wellFormed hset.fits he hc htrimmed hindex ?_⟩
  -- Whatever has gone was to be deleted, even if not all of that has gone.
  intro x hx
  rw [← List.mem_mergeSort, ← List.append_nil (List.mergeSort _ _)]
  exact hsubset hx

/-! ### Creations -/

/-- A new node is put below its parent, unless the parent is synced or is missing itself. -/
theorem run_create (h : Stage t root pairing index d.tree) (hq : q ∈ pairing.items)
    (hchildren : q.children = rs ++ c :: ps) (hfresh : c.isFresh = true)
    (hnone : index[c.key]? = none) :
    ∃ outcome index' d', (Apply.operation settings index
        (.create ⟨q.key, ps.map Pairing.key⟩ c.key c.content)).run editor d =
        (.ok (outcome, index'), d') ∧
      Stage t root pairing index' d'.tree ∧ ∀ k, k ≠ c.key → index'[k]? = index[k]? := by
  have hc : c ∈ q.children := hchildren ▸ List.mem_append_right _ List.mem_cons_self
  have hps : ∀ r ∈ ps, r ∈ pairing.items := fun r hr => Pairing.mem_items_of_mem_children
    (hchildren ▸ List.mem_append_right _ (List.mem_cons_of_mem _ hr)) hq
  cases hy : index[q.key]? with
  | none =>
    refine ⟨.skipped .noPosition, index, d, ?_, h, fun _ _ => rfl⟩
    simp only [Apply.operation, Edit.run_bind, Edit.run_tree, Destination.find?, hy,
      Option.bind_eq_bind, Option.bind_none, Edit.run_pure]
  | some y =>
    have hfind := hset.find?_destination h hq hps hy
    cases hsynced : d.tree.isSynced y with
    | true =>
      refine ⟨.skipped .syncedParent, index, d, ?_, h, fun _ _ => rfl⟩
      simp only [Apply.operation, Edit.run_bind, Edit.run_tree, hfind, hsynced, if_true,
        Edit.run_pure]
    | false =>
      obtain ⟨n, hn, -⟩ := h.exists_node hset.fits hq hy
      obtain ⟨-, hfragment, hpage⟩ := hset.fits.plain q hq c hc
      obtain ⟨d', reference, hrun, hputs, -, m, hm, hcontent⟩ :=
        Apply.run_create settings c.key hset.access h.sound hfind hsynced hn
          (hset.accepts h hq hc hy hn) hpage hfragment fun page => hset.exists_page h hq hy
      have henters : Enters pairing index (index.insert c.key d.nextId) d.tree d'.tree q c y
          d.nextId reference := by
        refine ⟨hq, hc, hy, hputs, fun k => getElem?_insert,
          .inr ⟨hnone, hfresh, Draft.node?_nextId h.sound, m, hm, ?_⟩⟩
        rw [hcontent]
        rfl
      refine ⟨.applied, _, d', hrun, henters.stage h hset.wellFormed hset.fits, fun k hk => ?_⟩
      rw [getElem?_insert, if_neg hk]

/-- The creations of a plan keep the stage. -/
theorem stage_of_creates (h : Stage t root pairing index d.tree)
    (hindex : ∀ q ∈ pairing.items, q.isFresh = true → index[q.key]? = none) :
    ∃ index' d', Carries settings editor (Plan.creates pairing) index d index' d' ∧
      Stage t root pairing index' d'.tree := by
  -- What is still to be created has no entry in the index yet.
  obtain ⟨index', d', hcarries, h', -, -⟩ := Carries.of_step
    (fun os index d => Stage t root pairing index d.tree ∧ (Plan.createdKeys os).Nodup ∧
      ∀ k ∈ Plan.createdKeys os, index[k]? = none)
    (fun o ho rest index d hd => by
      obtain ⟨q, hq, rs, c, ps, hchildren, hfresh, rfl⟩ := Plan.exists_of_mem_creates ho
      obtain ⟨h, hnodup, hnone⟩ := hd
      obtain ⟨hnot, hnodup⟩ := List.nodup_cons.mp hnodup
      obtain ⟨hself, hrest⟩ := List.forall_mem_cons.mp hnone
      obtain ⟨outcome, index', d', hrun, h', hkept⟩ :=
        hset.run_create settings h hq hchildren hfresh hself
      refine ⟨outcome, index', d', hrun, h', hnodup, fun k hk => ?_⟩
      rw [hkept k fun heq => hnot (heq ▸ hk)]
      exact hrest k hk)
    ⟨h, Plan.nodup_createdKeys hset.fits, fun k hk => by
      rw [Plan.createdKeys_creates] at hk
      obtain ⟨q, hq, rfl⟩ := List.mem_map.mp hk
      obtain ⟨hq, hfresh⟩ := List.mem_filter.mp hq
      refine hindex q ?_ hfresh
      rw [Pairing.items_eq]
      exact List.mem_cons_of_mem _ hq⟩
  exact ⟨index', d', hcarries, h'⟩

/-! ### Moves -/

/-- A child is put where it is to stand or stays where it is, or else it is to leave a synced node
where it has been from the beginning. -/
theorem run_move (h : Stage t root pairing index d.tree) (hq : q ∈ pairing.items)
    (hchildren : q.children = rs ++ c :: ps) :
    (∃ outcome d', (Apply.operation settings index
        (.move ⟨q.key, ps.map Pairing.key⟩ c.key c.partner?)).run editor d =
        (.ok (outcome, index), d') ∧ Stage t root pairing index d'.tree) ∨
    ∃ x z, c.partner? = some x ∧ t.Under x z ∧ q.partner? ≠ some z ∧ ¬ editor.Unlocked t z ∧
      (Apply.operation settings index
        (.move ⟨q.key, ps.map Pairing.key⟩ c.key c.partner?)).run editor d =
        (.error (.denied z .synced), d) := by
  have hc : c ∈ q.children := hchildren ▸ List.mem_append_right _ List.mem_cons_self
  have hcp := Pairing.mem_items_of_mem_children hc hq
  have hps : ∀ r ∈ ps, r ∈ pairing.items := fun r hr => Pairing.mem_items_of_mem_children
    (hchildren ▸ List.mem_append_right _ (List.mem_cons_of_mem _ hr)) hq
  -- Whether a move names its node or leaves it to the index, the index knows the node.
  have hid : c.partner?.or index[c.key]? = index[c.key]? := by
    cases hpartner : c.partner? with
    | none => rfl
    | some z => rw [Option.some_or, h.partner c hcp z hpartner]
  cases hy : index[q.key]? with
  | none =>
    refine .inl ⟨.skipped .noPosition, d, ?_, h⟩
    simp only [Apply.operation, Edit.run_bind, Edit.run_tree, Destination.find?, hy,
      Option.bind_eq_bind, Option.bind_none, Edit.run_pure]
  | some y =>
    have hfind := hset.find?_destination h hq hps hy
    cases hx : index[c.key]? with
    | none =>
      rw [hx] at hid
      refine .inl ⟨.skipped .unknownNode, d, ?_, h⟩
      simp only [Apply.operation, Edit.run_bind, Edit.run_tree, hfind, hx, hid, Option.filter_none,
        Edit.run_pure]
    | some x =>
      rw [hx] at hid
      obtain ⟨n, hn, -⟩ := h.exists_node hset.fits hcp hx
      have hcontains : (some x).filter d.tree.contains = some x :=
        Option.filter_eq_some_iff.mpr ⟨rfl, Tree.contains_iff.mpr ⟨n, hn⟩⟩
      rcases Apply.run_move_or_denied settings (values index ps).head? hset.access h.sound
        (h.movable hset.fits hset.wellFormed hq hc hy hx) (fun n => hset.accepts h hq hc hy)
        (fun n => hset.not_fragment h hq hc hx) (fun a b => hset.document_eq h hq hcp hy hx) with
        ⟨outcome, d', hrun, hd'⟩ | ⟨z, hz, hne, hlocked, hrun⟩
      · refine .inl ⟨outcome, d', ?_, ?_⟩
        · simp only [Apply.operation, Edit.run_bind, Edit.run_tree, hfind, hx, hid, hcontains, hrun,
            Edit.run_pure]
        · rcases hd' with rfl | ⟨reference, hputs⟩
          · exact h
          · have henters : Enters pairing index index d.tree d'.tree q c y x reference :=
              ⟨hq, hc, hy, hputs, fun k => by split <;> simp_all, .inl hx⟩
            exact henters.stage h hset.wellFormed hset.fits
      · -- The node has not been put into place yet, so that it stands where it stood.
        have hqz : index[q.key]? ≠ some z := fun hqz =>
          hne (Option.some.inj (hqz.symm.trans hy))
        have hunder : t.Under x z := (h.stands q hq c hc x hx z hz).resolve_right hqz
        obtain ⟨m, hm, -⟩ := hunder.exists_node
        refine .inr ⟨x, z, h.partner_of_old hcp hx hm, hunder, fun hpartner =>
          hqz (h.partner q hq z hpartner), ?_, ?_⟩
        · rwa [Editor.Unlocked, Tree.isSynced, ← h.sharing]
        · simp only [Apply.operation, Edit.run_bind, Edit.run_tree, hfind, hx, hid, hcontains, hrun]

/-- The moves of a plan keep the stage, up to one that would take a child from a synced node. -/
theorem stage_of_moves (e : Branch) (h : Stage t root pairing index d.tree) :
    (∃ d', Carries settings editor (Plan.moves claimed pairing) index d index d' ∧
      Stage t root pairing index d'.tree) ∨
    ∃ z, Stops settings editor (Plan.moves claimed pairing) index d (.denied z .synced) ∧
      ¬ editor.Unlocked t z ∧ (Plan.ofPairing e pairing claimed).TakesFrom t z := by
  have hlist : ∀ os : List Operation, (∀ o ∈ os, o ∈ Plan.moves claimed pairing) → ∀ d : Draft,
      Stage t root pairing index d.tree →
      (∃ d', Carries settings editor os index d index d' ∧ Stage t root pairing index d'.tree) ∨
      ∃ z, Stops settings editor os index d (.denied z .synced) ∧ ¬ editor.Unlocked t z ∧
        (Plan.ofPairing e pairing claimed).TakesFrom t z := by
    -- On the moves that are left, with the stage as the invariant.
    intro os
    induction os with
    | nil => exact fun _ d h => .inl ⟨d, .nil, h⟩
    | cons o os ih =>
      intro hos d h
      rw [List.forall_mem_cons] at hos
      have ho := hos.1
      obtain ⟨q, hq, rs, c, ps, hchildren, rfl⟩ := Plan.exists_of_mem_moves ho
      rcases hset.run_move settings h hq hchildren with
        ⟨outcome, d₁, hrun, h₁⟩ | ⟨x, z, hpartner, hunder, hne, hlocked, hrun⟩
      · rcases ih hos.2 d₁ h₁ with ⟨d₂, hcarries, h₂⟩ | ⟨z, hstops, hrest⟩
        · exact .inl ⟨d₂, .cons hrun hcarries, h₂⟩
        · exact .inr ⟨z, .later hrun hstops, hrest⟩
      · rw [hpartner] at ho
        refine .inr ⟨z, .here hrun, hlocked, ⟨q.key, ps.map Pairing.key⟩, c.key, x, ?_, hunder, ?_⟩
        · exact List.mem_append_left _ (List.mem_append_right _ ho)
        · rwa [Plan.getElem?_index hset.fits hq]
  exact hlist _ (fun _ ho => ho) d h

/-! ### Updates -/

/-- The content of a node changes, unless the node stands below a synced node. -/
theorem run_update {k : BranchKey} {c : Content} {b : Branch} (h : d.tree.Sound)
    (hkinds : t.KeepsKinds d.tree) (hq : .alike k c b ps ∈ pairing.items) :
    ∃ outcome d', (Apply.operation settings index (.update k b.id c)).run editor d =
        (.ok (outcome, index), d') ∧
      d'.tree.Sound ∧ t.KeepsKinds d'.tree := by
  obtain ⟨m, hm, hkind⟩ := hkinds (hset.fits.shows _ hq b rfl).1.node?
  cases hfree : Apply.belowSynced d.tree b.id with
  | true =>
    refine ⟨.skipped .syncedParent, d, ?_, h, hkinds⟩
    simp only [Apply.operation, Edit.run_bind, Edit.run_tree, hm, hfree, if_true, Edit.run_pure]
  | false =>
    -- Updates before this one may have changed the content of the node, but not its kind.
    have hsame : m.kind.same c.kind = true :=
      Kind.same_trans (Kind.same_symm hkind) (hset.fits.kind _ hq k c b ps rfl)
    have hrun : (Apply.operation settings index (.update k b.id c)).run editor d = _ :=
      Apply.run_update settings k hset.access hm hfree hsame
    have hchanges := (Apply.composed_operation settings index (.update k b.id c)).changes editor d h
    rw [hrun] at hchanges
    exact ⟨.applied, _, hrun, hchanges.sound h, hkinds.trans (hchanges.keepsKinds h)⟩

/-- No update of a plan is refused. -/
theorem carries_updates_or_skips (h : Stage t root pairing index d.tree) :
    ∃ d', Carries settings editor (Plan.updates pairing) index d index d' := by
  have hkinds : t.KeepsKinds d.tree := by
    intro id n hn
    obtain ⟨m, hm, hcontent⟩ := h.old hn
    exact ⟨m, hm, by rw [hcontent]; exact n.kind.same_refl⟩
  obtain ⟨index', d', hcarries, rfl, -⟩ := Carries.of_step
    (fun _ index' d => index' = index ∧ d.tree.Sound ∧ t.KeepsKinds d.tree)
    (fun o ho _ index' d hd => by
      obtain ⟨k, c, b, ps, hq, rfl⟩ := Plan.exists_of_mem_updates ho
      obtain ⟨hindex, h, hkinds⟩ := hd
      obtain ⟨outcome, d', hrun, h'⟩ := hset.run_update settings h hkinds hq
      exact ⟨outcome, index', d', hrun, hindex, h'⟩)
    ⟨rfl, h.sound, hkinds⟩
  exact ⟨d', hcarries⟩

end Ground

/-! ### Whole plans -/

/-- There is a plan for two branches of the same kind, made from a pairing that fits the first. -/
theorem exists_plan {u : Tree} {targetRoot : NodeId} {n m : Node} (ht : t.WellFormed)
    (hroot : t.node? root = some n) (hu : u.WellFormed) (htarget : u.node? targetRoot = some m)
    (hkind : n.kind.same m.kind = true)
    (htexts : ∀ id k, u.node? id = some k → k.kind.isText = true → k.children = [])
    (hfragments : ∀ id k, u.node? id = some k → u.Below id targetRoot →
      k.kind.isFragment = false) :
    ∃ e w, Merge.plan t root u targetRoot = .ok (Plan.ofBranches e w) ∧
      (Pairing.ofTarget e (Target.ofBranch w)).1.Fits t root
        (Pairing.ofTarget e (Target.ofBranch w)).2 := by
  obtain ⟨e, he, rfl, hshow⟩ := ht.exists_branch hroot
  obtain ⟨w, hw, rfl, hwshow⟩ := hu.exists_branch htarget
  obtain rfl := (ht.branch?_eq_some_iff.mp he).1
  obtain rfl := (hu.branch?_eq_some_iff.mp hw).1
  have hequal := Target.equals_ofBranch w
  -- The target inherits from its branch what is assumed of the nodes.
  have hplain : (Target.ofBranch w).Plain := by
    refine Target.plain_of_equals hwshow hequal
      (fun k hk => htexts k.id k (hwshow.node?_of_mem hk))
      fun k hk => ⟨?_, hu.innerPlain hwshow k hk⟩
    exact hfragments k.id k (hwshow.node?_of_mem (Branch.mem_nodes_of_mem_inner hk))
      (hwshow.below_of_mem_inner hu hk)
  have hcontent : (Target.ofBranch w).content.comparable = w.content.comparable := by
    generalize Target.ofBranch w = v at hequal
    obtain ⟨l, c, vs⟩ := v
    obtain ⟨k, cs⟩ := w
    exact (Labelled.equals_mk.mp hequal).1
  obtain ⟨-, hf⟩ := Pairing.fits_ofTarget ht hshow
    (Kind.same_trans hkind (Kind.same_symm (Content.same_of_comparable_eq hcontent)))
    (Target.nodup_labels w) hplain
  exact ⟨e, w, plan_eq_ok he hw hkind, hf⟩

/-- A plan is carried out with a report on all of its operations, or else it takes a child from a
synced node, and this is refused. -/
theorem Ground.run_plan_or_denied (settings : Settings)
    (hset : Ground t root claimed pairing editor) (ht : t.Sound) (hc : t.Coherent)
    (he : pairing.existing? = some e) :
    (∃ report d, (Apply.plan settings (Plan.ofPairing e pairing claimed)).run editor
        (Draft.start t) = (.ok report, d) ∧
      report.entries.map Prod.fst = (Plan.ofPairing e pairing claimed).operations) ∨
    ∃ z d, t.isSynced z = true ∧ (Plan.ofPairing e pairing claimed).TakesFrom t z ∧
      editor.syncedParents ≠ .allow ∧
      (Apply.plan settings (Plan.ofPairing e pairing claimed)).run editor (Draft.start t) =
        (.error (.denied z .synced), d) := by
  have hindex : ∀ q ∈ pairing.items, (Plan.ofPairing e pairing claimed).index[q.key]? =
      q.partner? := fun q hq => Plan.getElem?_index hset.fits hq
  obtain ⟨d₁, hdeletes, h₁⟩ := hset.stage_of_deletes settings ht hc he hindex
  obtain ⟨index, d₂, hcreates, h₂⟩ := hset.stage_of_creates settings h₁ fun q hq hfresh => by
    rw [hindex q hq, Pairing.partner?_eq_none_iff.mpr hfresh]
  have hbefore := hdeletes.append hcreates
  have hplan : ∀ {r : Except TreeError (List (Operation × Outcome)) × Draft},
      (Apply.operations settings (Plan.ofPairing e pairing claimed).index
        (Plan.ofPairing e pairing claimed).operations).run editor (Draft.start t) = r →
      (Apply.plan settings (Plan.ofPairing e pairing claimed)).run editor (Draft.start t) =
        (r.1.map Report.mk, r.2) := by
    rintro ⟨_ | _, _⟩ hrun <;> rw [Apply.plan, Edit.run_bind, Plan.sort_operations, hrun] <;> rfl
  rcases hset.stage_of_moves settings e h₂ with ⟨d₃, hmoves, h₃⟩ | ⟨z, hstops, hlocked, htakes⟩
  · -- Where no move is refused, nothing is.
    obtain ⟨d₄, hupdates⟩ := hset.carries_updates_or_skips settings h₃
    obtain ⟨entries, hrun⟩ := ((hbefore.append hmoves).append hupdates).run_operations
    exact .inl ⟨⟨entries⟩, d₄, hplan hrun, Apply.map_fst_of_run_operations hrun⟩
  · obtain ⟨d', hrun⟩ := ((hbefore.append_stops hstops).append
      (Plan.updates pairing)).run_operations
    rw [Editor.Unlocked, not_or, Bool.not_eq_false] at hlocked
    exact .inr ⟨z, d', hlocked.2, htakes, hlocked.1, hplan hrun⟩

end Merge

namespace Session

open ContentTree.Merge

variable {t u : Tree} {root targetRoot : NodeId} {n m : Node} {store : Store} {editor : Editor}

/-- Where everybody may write and the store takes what it is given, a merge succeeds, with a report
on all operations of its plan, or else the plan takes a child from a synced node, and the policy
does not let it: then it is this node that is named. -/
theorem merge_ok_or_denied (settings : Settings) (ht : t.Sound) (hcoherent : t.Coherent)
    (hroot : t.node? root = some n) (hu : u.WellFormed) (htarget : u.node? targetRoot = some m)
    (hkind : n.kind.same m.kind = true)
    (htexts : ∀ id k, u.node? id = some k → k.kind.isText = true → k.children = [])
    (hfragments : ∀ id k, u.node? id = some k → u.Below id targetRoot → k.kind.isFragment = false)
    (haccess : editor.access = .unrestricted) (hclosed : store.staged = none)
    (hpersist : store.refusePersist = ∅) (hcommit : store.refuseCommit = none) :
    ∃ p, Merge.plan t root u targetRoot = .ok p ∧
      ((∃ report, (merge editor settings root u targetRoot ⟨t, store⟩).1 = .ok report ∧
          report.entries.map Prod.fst = p.operations) ∨
        ∃ z, t.isSynced z = true ∧ p.TakesFrom t z ∧ editor.syncedParents ≠ .allow ∧
          (merge editor settings root u targetRoot ⟨t, store⟩).1 =
            .error (.failed (.tree (.denied z .synced)))) := by
  obtain ⟨e, w, hplan, hf⟩ := exists_plan ht.toWellFormed hroot hu htarget hkind htexts hfragments
  have hset : Ground t root _ _ editor := ⟨ht.toWellFormed, hf, haccess, fun page hpage =>
    hcoherent.pages.exists_page ht.toWellFormed hpage⟩
  have hcomposed := Apply.composed_plan settings (Plan.ofBranches e w)
  refine ⟨_, hplan, ?_⟩
  rcases hset.run_plan_or_denied settings ht hcoherent rfl with
    ⟨report, d, hrun, hreport⟩ | ⟨z, d, hsynced, htakes, hpolicy, hrun⟩
  · obtain ⟨store', hmerged⟩ := run_ok hcomposed ht hclosed hpersist hcommit hrun
    refine .inl ⟨report, ?_, hreport⟩
    simp only [merge, hplan, hmerged]
  · have hrefused := run_refused hcomposed ht hclosed (congrArg Prod.fst hrun)
    refine .inr ⟨z, hsynced, htakes, hpolicy, ?_⟩
    generalize hmerged : run editor (Apply.plan settings (Plan.ofBranches e w)) ⟨t, store⟩ = r
      at hrefused
    obtain ⟨_, s⟩ := r
    obtain rfl := hrefused
    simp only [merge, hplan, hmerged]

/-- The page with the boxes as it is to be: what is in one box goes into the other. -/
def boxesSwapped : Snapshot :=
  .mk (some 1) { kind := .page "home" 0 false } none
    [.mk (some 2) { kind := .element "p" ∅ } none [],
      .mk (some 3) { kind := .element "q" ∅ } none
        [.mk (some 4) { kind := .element "b" ∅ } none []]]

/-- What is in a shared box is to go into another one. -/
theorem merge_ok_or_denied_sharedBox :
    ∃ p, Merge.plan sharedBox 1 (({} : Tree).load boxesSwapped).2 1 = .ok p ∧
      ((∃ report, (merge ⟨.anonymous, .unrestricted, .reject⟩ {} 1
          (({} : Tree).load boxesSwapped).2 1 ⟨sharedBox, {}⟩).1 = .ok report ∧
          report.entries.map Prod.fst = p.operations) ∨
        ∃ z, sharedBox.isSynced z = true ∧ p.TakesFrom sharedBox z ∧
          SyncedParents.reject ≠ .allow ∧
          (merge ⟨.anonymous, .unrestricted, .reject⟩ {} 1 (({} : Tree).load boxesSwapped).2 1
            ⟨sharedBox, {}⟩).1 = .error (.failed (.tree (.denied z .synced)))) := by
  have hreachable : (({} : Tree).load boxesSwapped).2.Reachable .successful :=
    .load .empty boxesSwapped ⟨1, by decide⟩
  obtain ⟨n, hn, hkind⟩ := (Option.any_eq_true _ _).mp
    (by decide : (sharedBox.node? 1).any (·.kind.same (.page "home" 0 false)) = true)
  have hplain : ∀ entry ∈ (({} : Tree).load boxesSwapped).2.nodes.toList,
      (entry.2.kind.isText = true → entry.2.children = []) ∧ entry.2.kind.isFragment = false := by
    decide
  have hnode : ∀ {id k}, (({} : Tree).load boxesSwapped).2.node? id = some k →
      (k.kind.isText = true → k.children = []) ∧ k.kind.isFragment = false := fun {id k} hk =>
    hplain (id, k) (Std.ExtTreeMap.mem_toList_iff_getElem?_eq_some.mpr hk)
  exact merge_ok_or_denied {} reachable_sharedBox.sound reachable_sharedBox.coherent hn
    hreachable.sound.toWellFormed (by rfl) hkind (fun _ _ hk => (hnode hk).1)
    (fun _ _ hk _ => (hnode hk).2) rfl rfl rfl rfl

end Session

end ContentTree
