import ContentTree.Proofs.Edit.Departures
import ContentTree.Proofs.Merge.Carry
import ContentTree.Proofs.Merge.Leads
import ContentTree.Proofs.Session.Insertion

/-!
# What an applied operation has done

An operation that is reported as applied has been carried out at some moment of the merge, between
what was carried out before it and after it. A creation has then put its node below the parent that
was looked up for it, and a move has done so whether a sibling, an ancestor of a sibling or the end
of the list was the place in the end. Fragments are the exception in both: in their stead their
members come below the parent. A fragment that has just been created has none, so that it is left
without a parent although its creation counts as applied.

## Main definitions

* `Apply.Attached`: what an applied operation has done.

## Main results

* `Apply.exists_of_run_operations`: an entry of a report belongs to a run of its operation.
* `Apply.applied_attached`: what is applied is attached, fragments apart.
-/

namespace ContentTree

open Relation

namespace Edit

variable {e : Editor} {d d' : Draft} {p c id : NodeId} {n : Node} {document : Option NodeId}
  {reference : Option NodeId} {content : Content} {u : Unit}

/-- Creating a node adds it with the next identifier, pages without a document. -/
theorem added_of_run_create (hrun : (create document content).run e d = (.ok id, d')) :
    id = d.nextId ∧
      (d' = d.addAt d.nextId (owned e content) ∨ d' = added e d content document) := by
  unfold create at hrun
  cases hpage : content.kind.isPage <;> cases document <;>
    simp only [hpage, Bool.not_true, Bool.not_false, Bool.false_eq_true, if_true, if_false] at hrun
  case false.none =>
    obtain ⟨hid, rfl⟩ := Prod.mk.inj hrun
    exact ⟨(Except.ok.inj hid).symm, .inr rfl⟩
  case false.some page =>
    obtain ⟨_, d₁, hcheck, hrun⟩ := run_bind_eq_ok.mp hrun
    obtain ⟨-, rfl⟩ := run_check_eq_ok.mp hcheck
    obtain ⟨hid, rfl⟩ := Prod.mk.inj hrun
    exact ⟨(Except.ok.inj hid).symm, .inr rfl⟩
  all_goals
    obtain ⟨hid, rfl⟩ := Prod.mk.inj hrun
    exact ⟨(Except.ok.inj hid).symm, .inl rfl⟩

/-- A new node has the given kind, and neither a parent nor children. -/
theorem exists_of_run_create (hd : d.tree.Sound)
    (hrun : (create document content).run e d = (.ok id, d')) :
    d.tree.node? id = none ∧ ∃ n, d'.tree.node? id = some n ∧
      n.kind = content.kind ∧ n.parent = none ∧ n.children = [] := by
  have hid := Draft.node?_nextId hd
  have hnew := (Draft.node?_addAt d d.nextId (owned e content) d.nextId).trans (if_pos rfl)
  obtain ⟨rfl, rfl | rfl⟩ := added_of_run_create hrun
  · exact ⟨hid, _, hnew, rfl, rfl, rfl⟩
  · have hsound := hd.addAt hid (owned e content)
    refine ⟨hid, _,
      (Draft.rewritten_setDocument hsound.keyed d.nextId document).node?_of_some hnew, ?_⟩
    unfold Draft.documented
    split <;> exact ⟨rfl, rfl, rfl⟩

/-- After a node other than a fragment was accepted, it stands below its new parent. -/
theorem under_of_insert (hd : d.tree.Sound) (hrun : (insert p c reference).run e d = (.ok u, d'))
    (hn : d.tree.node? c = some n) (hfragment : n.kind.isFragment = false) :
    d'.tree.Under c p := by
  by_cases hne : reference = some c
  · subst hne
    obtain ⟨rfl, hu⟩ := eq_of_insert_self hrun hn hfragment
    exact hu
  · have hsplices := splices_insert hd hrun hn fun _ => hne
    rw [Tree.inserted_of_not_fragment hn hfragment] at hsplices
    exact (hsplices.under c p).mpr (by simp)

/-- After a fragment was accepted, it is empty. -/
theorem children_of_insert (hd : d.tree.Sound)
    (hrun : (insert p c reference).run e d = (.ok u, d')) (hn : d.tree.node? c = some n)
    (hfragment : n.kind.isFragment = true) : d'.tree.children c = [] := by
  have hsplices := splices_insert hd hrun hn fun hplain =>
    absurd (hfragment.symm.trans hplain) Bool.true_eq_false.mp
  rw [Tree.inserted_of_fragment hn hfragment] at hsplices
  rw [hsplices.children_ne c (ne_of_insert hrun).symm]
  exact List.filter_eq_nil_iff.mpr fun x hx => by simpa using hx

/-- An empty fragment leaves a tree as it is. -/
theorem eq_of_insert_empty (hrun : (insert p c reference).run e d = (.ok u, d'))
    (hn : d.tree.node? c = some n) (hfragment : n.kind.isFragment = true)
    (hchildren : n.children = []) : d' = d := by
  obtain ⟨-, hall⟩ := insertAll_of_insert hn hfragment hrun
  rw [hchildren] at hall
  exact (Prod.mk.inj hall).2.symm

end Edit

namespace Draft

variable {e : Editor} {p : NodeId} {d d' : Draft}

/-- Changes after which whoever stood below a node stands there still or below `p`. -/
structure Gathers (e : Editor) (p : NodeId) (d d' : Draft) : Prop where
  changes : d.Changes e d'
  hands : Hands (some p) d d'

instance : IsPreorder Draft (Gathers e p) where
  refl d := ⟨.refl, refl_of (Hands (some p)) d⟩
  trans _ _ _ h h' := ⟨h.changes.trans h'.changes, trans_of (Hands (some p)) h.hands h'.hands⟩

end Draft

namespace Merge.Apply

open ContentTree.Draft (Gathers)
open ContentTree.Edit (Leads)

variable {settings : Settings} {e : Editor} {d d₁ d' : Draft} {index index' : KeyIndex}
  {destination : Destination} {key : BranchKey} {position : Position} {p c id : NodeId} {n : Node}
  {reference : Option NodeId} {content : Content} {outcome : Outcome} {o : Operation}
  {entries before after : List (Operation × Outcome)} {os : List Operation}

/-! ### Moves -/

theorem gathers_insert (p c : NodeId) (reference : Option NodeId) :
    Leads (Gathers e p) e d (Edit.insert p c reference) :=
  Edit.leads_insert fun _ _ _ _ ha => ⟨.single (.place ha), Draft.hands_place ha⟩

/-- The search for a place ends with the first attempt that succeeds. -/
theorem exists_of_climb (attempts : Nat) : ∀ (anchor : Option NodeId) (d : Draft),
    (climb p c attempts anchor).run e d = (.ok true, d') →
    ∃ d₁ reference, Gathers e p d d₁ ∧ (Edit.insert p c reference).run e d₁ = (.ok (), d') := by
  induction attempts with
  | zero => exact fun _ _ hrun => nomatch Except.ok.inj (Prod.mk.inj hrun).1
  | succ attempts ih =>
    intro anchor d hrun
    cases anchor with
    | none => exact nomatch Except.ok.inj (Prod.mk.inj hrun).1
    | some a =>
      have hleads : Leads (Gathers e p) e d (Edit.insertBefore p c (some a)) :=
        .bind (gathers_insert p c (some a)) fun _ _ _ _ => .pure c
      unfold Leads at hleads
      rcases hfirst : (Edit.insertBefore p c (some a)).run e d with ⟨err | b, d₁⟩
      · simp only [climb, Edit.run_bind, Edit.run_tryCatch, hfirst, Edit.run_pure,
          Bool.false_eq_true, if_false, Edit.run_tree] at hrun
        -- An attempt that is refused may have moved some members of a fragment already.
        rw [hfirst] at hleads
        obtain ⟨d₂, reference, hg, hinsert⟩ := ih _ d₁ hrun
        exact ⟨d₂, reference, trans_of (Gathers e p) hleads hg, hinsert⟩
      · simp only [climb, Edit.run_bind, Edit.run_tryCatch, hfirst, Edit.run_pure, if_true] at hrun
        obtain ⟨-, rfl⟩ := Prod.mk.inj hrun
        exact ⟨d, some a, refl_of (Gathers e p) d, (Edit.run_insertBefore_eq_ok.mp hfirst).2⟩

/-- A move that is applied ends with an insertion below the parent, wherever among its children. -/
theorem exists_of_move (hrun : (move settings position c).run e d = (.ok .applied, d')) :
    ∃ d₁ reference, Gathers e position.parent d d₁ ∧
      (Edit.insert position.parent c reference).run e d₁ = (.ok (), d') := by
  cases hsynced : d.tree.isSynced position.parent with
  | true =>
    simp only [move, Edit.run_bind, Edit.run_tree, hsynced, if_true, Edit.run_pure] at hrun
    cases Except.ok.inj (Prod.mk.inj hrun).1
  | false =>
    cases hstands : standsAt d.tree position c with
    | true =>
      simp only [move, Edit.run_bind, Edit.run_tree, hsynced, Bool.false_eq_true, if_false, hstands,
        if_true, Edit.run_pure] at hrun
      cases Except.ok.inj (Prod.mk.inj hrun).1
    | false =>
      simp only [move, Edit.run_bind, Edit.run_tree, hsynced, hstands, Bool.false_eq_true,
        if_false] at hrun
      rcases hclimb : (climb position.parent c settings.maxAscent position.before).run e d with
        ⟨err | placed, d₁⟩
      · simp only [hclimb] at hrun
        cases (Prod.mk.inj hrun).1
      · simp only [hclimb] at hrun
        cases placed with
        | true =>
          obtain ⟨-, rfl⟩ := Prod.mk.inj hrun
          exact exists_of_climb _ _ d hclimb
        | false =>
          -- Only the end of the list is left.
          have hleads : Leads (Gathers e position.parent) e d
              (climb position.parent c settings.maxAscent position.before) :=
            leads_climb (fun d₁ _ reference => gathers_insert position.parent c reference) _ _ d
              (refl_of _ d)
          rw [Leads, hclimb] at hleads
          obtain ⟨_, d₂, happend, hlast⟩ := Edit.run_bind_eq_ok.mp hrun
          obtain ⟨-, rfl⟩ := Prod.mk.inj hlast
          exact ⟨d₁, none, hleads, (Edit.run_insertBefore_eq_ok.mp happend).2⟩

/-- After an insertion, the node stands below its parent, or in its stead the members of a fragment
do, those included that had come there before. -/
theorem attached_of_insert (hd : d.tree.Sound) (hn : d.tree.node? c = some n)
    (hg : Gathers e p d d₁) (hrun : (Edit.insert p c reference).run e d₁ = (.ok (), d')) :
    if n.kind.isFragment then
      d'.tree.children c = [] ∧ ∀ x ∈ d.tree.children c, x ∈ d'.tree.children p
    else c ∈ d'.tree.children p := by
  have hd₁ := hg.changes.sound hd
  obtain ⟨n₁, hn₁, hsame⟩ := hg.changes.keepsKinds hd hn
  have hkind : n₁.kind.isFragment = n.kind.isFragment := Kind.isFragment_eq_of_same hsame
  have hleads : Gathers e p d₁ d' := by
    have h := gathers_insert (e := e) (d := d₁) p c reference
    rwa [Leads, hrun] at h
  have hd' := (hleads.changes.sound hd₁).toWellFormed
  split
  · next hfragment =>
    have hempty := Edit.children_of_insert hd₁ hrun hn₁ (hkind.trans hfragment)
    refine ⟨hempty, fun x hx => ?_⟩
    rw [hd.mem_children_iff] at hx
    rcases (trans_of (Gathers e p) hg hleads).hands.under hd hx with hxc | ⟨r, hr, hxr⟩
    · rw [← hd'.mem_children_iff, hempty] at hxc
      exact absurd hxc List.not_mem_nil
    · obtain rfl := Option.some.inj hr
      exact hd'.mem_children_iff.mpr hxr
  · next hplain =>
    exact hd'.mem_children_iff.mpr
      (Edit.under_of_insert hd₁ hrun hn₁ (by simpa [hkind] using hplain))

/-! ### Creations -/

/-- A creation that is applied inserts a new node below the parent, wherever among its children. -/
theorem exists_of_create (hrun : (create position content).run e d = (.ok id, d')) :
    ∃ d₁ document reference, (Edit.create document content).run e d = (.ok id, d₁) ∧
      (Edit.insert position.parent id reference).run e d₁ = (.ok (), d') := by
  obtain ⟨_, _, htree, hrun⟩ := Edit.run_bind_eq_ok.mp hrun
  obtain ⟨-, rfl⟩ := Prod.mk.inj htree
  obtain ⟨id', d₁, hcreate, hrun⟩ := Edit.run_bind_eq_ok.mp hrun
  obtain ⟨_, _, htree, hrun⟩ := Edit.run_bind_eq_ok.mp hrun
  obtain ⟨-, rfl⟩ := Prod.mk.inj htree
  obtain ⟨rfl, hinsert⟩ := Edit.run_insertBefore_eq_ok.mp hrun
  exact ⟨_, _, _, hcreate, hinsert⟩

/-- A created node is new and stands below its parent. A fragment is new, too, but as it has no
members yet, nothing comes below the parent and it has no parent itself. -/
theorem attached_of_create (hd : d.tree.Sound)
    (hrun : (create position content).run e d = (.ok id, d')) :
    d.tree.node? id = none ∧ (∃ n, d'.tree.node? id = some n ∧ content.kind.same n.kind = true) ∧
      if content.kind.isFragment then d'.tree.parent? id = none
      else id ∈ d'.tree.children position.parent := by
  obtain ⟨d₁, document, reference, hcreate, hinsert⟩ := exists_of_create hrun
  obtain ⟨hfresh, n, hn, hkind, hroot, hempty⟩ := Edit.exists_of_run_create hd hcreate
  have hd₁ : d₁.tree.Sound := by
    have htame := Edit.tame_create e d document content
    rw [Edit.Tame, hcreate] at htame
    exact htame.sound hd
  have hchanges : d₁.Changes e d' := by
    have htame := Edit.tame_insert e d₁ position.parent id reference
    rwa [Edit.Tame, hinsert] at htame
  obtain ⟨n', hn', hsame⟩ := hchanges.keepsKinds hd₁ hn
  refine ⟨hfresh, ⟨n', hn', hkind ▸ hsame⟩, ?_⟩
  split
  · next hfragment =>
    -- There is nothing to be put in for a fragment without members.
    obtain rfl := Edit.eq_of_insert_empty hinsert hn (hkind ▸ hfragment) hempty
    rw [Tree.parent?_eq hn, hroot]
  · next hplain =>
    have hunder := Edit.under_of_insert hd₁ hinsert hn (by simpa [hkind] using hplain)
    exact (hchanges.sound hd₁).mem_children_iff.mpr hunder

/-! ### Operations -/

/-- What an applied operation has done. The parent is the one that the destination stood for when
the operation was carried out. -/
def Attached (index index' : KeyIndex) (t t' : Tree) : Operation → Prop
  | .create destination key content =>
    ∃ position id, destination.find? t index = some position ∧ t.node? id = none ∧
      (∃ n, t'.node? id = some n ∧ content.kind.same n.kind = true) ∧
      index' = index.insert key id ∧
      if content.kind.isFragment then t'.parent? id = none
      else id ∈ t'.children position.parent
  | .move destination key id =>
    ∃ position c n, destination.find? t index = some position ∧ id.or index[key]? = some c ∧
      t.node? c = some n ∧
      if n.kind.isFragment then
        t'.children c = [] ∧ ∀ x ∈ t.children c, x ∈ t'.children position.parent
      else c ∈ t'.children position.parent
  | _ => True

theorem attached_of_operation (hd : d.tree.Sound)
    (hrun : (operation settings index o).run e d = (.ok (.applied, index'), d')) :
    Attached index index' d.tree d'.tree o := by
  cases o with
  | delete id => trivial
  | update key id content => trivial
  | create destination key content =>
    obtain ⟨_, _, htree, hrun⟩ := Edit.run_bind_eq_ok.mp hrun
    obtain ⟨ht, rfl⟩ := Prod.mk.inj htree
    obtain rfl := Except.ok.inj ht
    split at hrun
    · exact nomatch (Prod.mk.inj (Except.ok.inj (Prod.mk.inj hrun).1)).1
    · next position hposition =>
      split at hrun
      · exact nomatch (Prod.mk.inj (Except.ok.inj (Prod.mk.inj hrun).1)).1
      · obtain ⟨id, d₁, hcreate, hlast⟩ := Edit.run_bind_eq_ok.mp hrun
        obtain ⟨hindex, rfl⟩ := Prod.mk.inj hlast
        obtain ⟨hfresh, hnew, hattached⟩ := attached_of_create hd hcreate
        exact ⟨position, id, hposition, hfresh, hnew,
          (Prod.mk.inj (Except.ok.inj hindex)).2.symm, hattached⟩
  | move destination key id =>
    obtain ⟨_, _, htree, hrun⟩ := Edit.run_bind_eq_ok.mp hrun
    obtain ⟨ht, rfl⟩ := Prod.mk.inj htree
    obtain rfl := Except.ok.inj ht
    split at hrun
    · exact nomatch (Prod.mk.inj (Except.ok.inj (Prod.mk.inj hrun).1)).1
    · next position hposition =>
      split at hrun
      · exact nomatch (Prod.mk.inj (Except.ok.inj (Prod.mk.inj hrun).1)).1
      · next c hc =>
        obtain ⟨outcome, d₁, hmove, hlast⟩ := Edit.run_bind_eq_ok.mp hrun
        obtain ⟨hindex, rfl⟩ := Prod.mk.inj hlast
        obtain ⟨rfl, -⟩ := Prod.mk.inj (Except.ok.inj hindex)
        obtain ⟨hor, hcontains⟩ := Option.filter_eq_some_iff.mp hc
        obtain ⟨n, hn⟩ := Tree.contains_iff.mp hcontains
        obtain ⟨d₂, reference, hg, hinsert⟩ := exists_of_move hmove
        exact ⟨position, c, n, hposition, hor, hn, attached_of_insert hd hn hg hinsert⟩

/-! ### Reports -/

theorem run_operations_cons {entry : Operation × Outcome}
    (hrun : (operations settings index os).run e d = (.ok (entry :: entries), d')) :
    ∃ os' index₁ d₁, (operation settings index entry.1).run e d = (.ok (entry.2, index₁), d₁) ∧
      (operations settings index₁ os').run e d₁ = (.ok entries, d') := by
  cases os with
  | nil => exact nomatch Except.ok.inj (Prod.mk.inj hrun).1
  | cons o os =>
    obtain ⟨⟨outcome, index₁⟩, d₁, hfirst, hrun⟩ := Edit.run_bind_eq_ok.mp hrun
    obtain ⟨rest, d₂, hrest, hlast⟩ := Edit.run_bind_eq_ok.mp hrun
    obtain ⟨hentries, rfl⟩ := Prod.mk.inj hlast
    obtain ⟨rfl, rfl⟩ := List.cons.inj (Except.ok.inj hentries)
    exact ⟨os, index₁, d₁, hfirst, hrest⟩

/-- The operations of a report have been carried out one after the other. -/
theorem carries_of_run_operations : ∀ (entries : List (Operation × Outcome))
    (os : List Operation) (index : KeyIndex) (d : Draft),
    (operations settings index os).run e d = (.ok entries, d') →
    ∃ index', Carries settings e (entries.map Prod.fst) index d index' d'
  | [], os, index, d, hrun => by
    cases os with
    | nil =>
      obtain ⟨-, rfl⟩ := Prod.mk.inj hrun
      exact ⟨index, .nil⟩
    | cons o os =>
      obtain ⟨_, _, -, hrun⟩ := Edit.run_bind_eq_ok.mp hrun
      obtain ⟨_, _, -, hlast⟩ := Edit.run_bind_eq_ok.mp hrun
      exact nomatch Except.ok.inj (Prod.mk.inj hlast).1
  | entry :: entries, os, index, d, hrun => by
    obtain ⟨os', index₁, d₁, hfirst, hrest⟩ := run_operations_cons hrun
    obtain ⟨index', hcarries⟩ := carries_of_run_operations entries os' index₁ d₁ hrest
    exact ⟨index', .cons hfirst hcarries⟩

/-- An entry of a report belongs to a run of its operation, between those of the entries before and
after it. -/
theorem exists_of_run_operations : ∀ (before : List (Operation × Outcome)) (os : List Operation)
    (index : KeyIndex) (d : Draft),
    (operations settings index os).run e d = (.ok (before ++ (o, outcome) :: after), d') →
    ∃ index₁ d₁ index₂ d₂ index', Carries settings e (before.map Prod.fst) index d index₁ d₁ ∧
      (operation settings index₁ o).run e d₁ = (.ok (outcome, index₂), d₂) ∧
      Carries settings e (after.map Prod.fst) index₂ d₂ index' d'
  | [], os, index, d, hrun => by
    obtain ⟨os', index₂, d₂, hfirst, hrest⟩ := run_operations_cons hrun
    obtain ⟨index', hcarries⟩ := carries_of_run_operations after os' index₂ d₂ hrest
    exact ⟨index, d, index₂, d₂, index', .nil, hfirst, hcarries⟩
  | entry :: before, os, index, d, hrun => by
    obtain ⟨os', index₀, d₀, hfirst, hrest⟩ := run_operations_cons hrun
    obtain ⟨index₁, d₁, index₂, d₂, index', hbefore, hmiddle, hafter⟩ :=
      exists_of_run_operations before os' index₀ d₀ hrest
    exact ⟨index₁, d₁, index₂, d₂, index', .cons hfirst hbefore, hmiddle, hafter⟩

theorem sound_of_carries (h : Carries settings e os index d index' d') (hd : d.tree.Sound) :
    d'.tree.Sound := by
  induction h with
  | nil => exact hd
  | @cons o os index _ _ d _ _ _ run _ ih =>
    have hchanges := (composed_operation settings index o).changes e d hd
    rw [run] at hchanges
    exact ih (hchanges.sound hd)

/-- Applied means attached, fragments apart. Whatever the plan, the tree, the settings and the
policy, an entry that is reported as applied belongs to a run of its operation. Directly after it a
created or moved node is a child of the parent that had been looked up for it, and of a moved
fragment all members are. Only a created fragment is left without a parent. -/
theorem applied_attached {plan : Plan} {report : Report} (hd : d.tree.Sound)
    (hrun : (Apply.plan settings plan).run e d = (.ok report, d'))
    (before after : List (Operation × Outcome))
    (hentries : report.entries = before ++ (o, .applied) :: after) :
    ∃ index₁ d₁ index₂ d₂ index',
      Carries settings e (before.map Prod.fst) plan.index d index₁ d₁ ∧
      (operation settings index₁ o).run e d₁ = (.ok (.applied, index₂), d₂) ∧
      Carries settings e (after.map Prod.fst) index₂ d₂ index' d' ∧
      Attached index₁ index₂ d₁.tree d₂.tree o := by
  obtain ⟨entries, d'', hoperations, hlast⟩ := Edit.run_bind_eq_ok.mp hrun
  obtain ⟨hreport, rfl⟩ := Prod.mk.inj hlast
  obtain rfl := Except.ok.inj hreport
  dsimp only at hentries
  rw [hentries] at hoperations
  obtain ⟨index₁, d₁, index₂, d₂, index', hbefore, hmiddle, hafter⟩ :=
    exists_of_run_operations before _ plan.index d hoperations
  exact ⟨index₁, d₁, index₂, d₂, index', hbefore, hmiddle, hafter,
    attached_of_operation (sound_of_carries hbefore hd) hmiddle⟩

/-- The plan with a single operation, for a page that goes by the key `home`. -/
def onHome (o : Operation) : Plan where
  operations := [o]
  index := (∅ : KeyIndex).insert "home" 1

theorem run_onHome (o : Operation) :
    (Apply.plan {} (onHome o)).run e d =
      (do return ⟨← operations {} (onHome o).index [o]⟩ : Edit Report).run e d := by
  rw [Apply.plan, onHome, Operation.sort, List.mergeSort_singleton]

/-- A node moves from a box to the end of the page. -/
theorem applied_attached_boxesAndMembers :
    ∃ report d', (Apply.plan {} (onHome (.move ⟨"home", []⟩ "bold" (some 4)))).run
        ⟨.anonymous, .unrestricted, .reject⟩ (Draft.start Session.boxesAndMembers) =
          (.ok report, d') ∧
      report.entries = [(.move ⟨"home", []⟩ "bold" (some 4), .applied)] ∧
      4 ∈ d'.tree.children 1 := by
  obtain ⟨d', hrun⟩ : ∃ d', (Apply.plan {} (onHome (.move ⟨"home", []⟩ "bold" (some 4)))).run
      ⟨.anonymous, .unrestricted, .reject⟩ (Draft.start Session.boxesAndMembers) =
        (.ok ⟨[(.move ⟨"home", []⟩ "bold" (some 4), .applied)]⟩, d') := by
    rw [run_onHome]
    exact ⟨_, rfl⟩
  have hsound : (Draft.start Session.boxesAndMembers).tree.Sound :=
    Session.reachable_boxesAndMembers.sound
  obtain ⟨index, d₁, index', d₂, _, hbefore, -, hafter, position, c, n, hposition, hor, hn,
    hattached⟩ := applied_attached hsound hrun [] [] rfl
  cases hbefore
  cases hafter
  obtain rfl : (⟨1, none⟩ : Position) = position := Option.some.inj hposition
  obtain rfl : 4 = c := Option.some.inj hor
  have hkind : (Session.boxesAndMembers.node? 4).map (·.kind.isFragment) = some false := by decide
  rw [← Draft.tree_start Session.boxesAndMembers, hn] at hkind
  have hplain : n.kind.isFragment = false := Option.some.inj hkind
  rw [hplain, if_neg Bool.false_ne_true] at hattached
  exact ⟨_, _, hrun, rfl, hattached⟩

/-- A fragment is created below the page, and that counts as applied, but it has no parent and the
page has the children it had. -/
theorem not_attached_fragment :
    ((Apply.plan {} (onHome (.create ⟨"home", []⟩ "list" { kind := .fragment }))).run
      ⟨.anonymous, .unrestricted, .reject⟩ (Draft.start Session.boxesAndMembers)).1.map
        (·.entries) = .ok [(.create ⟨"home", []⟩ "list" { kind := .fragment }, .applied)] ∧
    (⟨"home", []⟩ : Destination).find? Session.boxesAndMembers
      (onHome (.create ⟨"home", []⟩ "list" { kind := .fragment })).index = some ⟨1, none⟩ ∧
    (((Apply.plan {} (onHome (.create ⟨"home", []⟩ "list" { kind := .fragment }))).run
      ⟨.anonymous, .unrestricted, .reject⟩ (Draft.start Session.boxesAndMembers)).2.tree.node?
        10).map (fun n => (n.kind, n.parent)) = some (.fragment, none) ∧
    ((Apply.plan {} (onHome (.create ⟨"home", []⟩ "list" { kind := .fragment }))).run
      ⟨.anonymous, .unrestricted, .reject⟩ (Draft.start Session.boxesAndMembers)).2.tree.children
        1 = [2, 5] := by
  rw [run_onHome]
  exact ⟨by decide, by decide, by decide, by decide⟩

end Merge.Apply

end ContentTree
