import ContentTree.Proofs.Draft.Untouched
import ContentTree.Proofs.Draft.Versions
import ContentTree.Proofs.Edit.Departures
import ContentTree.Proofs.Session.Reach

/-!
# Access in transactions

What the operations ask for, seen from outside: where a node has lost a child, the principal was
allowed to take it, or to put it where it is now. Whoever may write nothing changes nothing that is
there.

## Main results

* `Session.departure_permitted`: what was writable where a single operation has taken a child.
* `Session.departures_unasked`: parents that were not writable and lost a child.
* `Session.untouched_of_unwritable`: what is left of a tree by someone who may write nothing.
-/

namespace ContentTree

/-! ### Departures -/

theorem Departure.Permitted.bumpPages {way : Departure} {e : Editor} {t : Tree} {d : Draft}
    {n : Node} {c : NodeId} (h : way.Permitted e t d.tree n c) (hd : d.tree.Keyed) :
    way.Permitted e t d.bumpPages.tree n c := by
  cases way with
  | removed => exact h
  | moved parent =>
    refine h.imp_right fun hmoved => ⟨?_, hmoved.2⟩
    exact (Draft.parent?_bumpPages hd c).trans hmoved.1
  | adopted page =>
    obtain ⟨hparent, hdocument, hw⟩ := h
    exact ⟨(Draft.parent?_bumpPages hd c).trans hparent,
      (Draft.document?_bumpPages hd c).trans hdocument, hw⟩
  | joined => exact h

namespace Session

variable {α : Type} {editor : Editor} {edit : Edit α} {t : Tree} {store : Store} {s : Session}
  {a : α} {z c : NodeId} {n : Node} {way : Departure}

/-- Where a node has lost a child by a single operation that succeeded, the principal was allowed to
write the node, or else the operation has put the child elsewhere, and the principal was allowed to
write the node that received it. A node below which texts were joined was writable as it was then,
with at most another index and, if it is a text itself, a longer content. -/
theorem departure_permitted {counts : Tree.Loads} (ht : t.Reachable counts)
    (hedit : edit.Single way) (hrun : run editor edit ⟨t, store⟩ = (.ok a, s))
    (hn : t.node? z = some n) (hc : c ∈ t.children z) (hlost : c ∉ s.tree.children z) :
    way.Permitted editor t s.tree n c := by
  obtain ⟨d, hedited, hd, htree⟩ := exists_run_of_run_eq_ok hedit.composed ht.sound hrun
  rw [htree] at hlost ⊢
  rw [Draft.children_bumpPages hd.keyed] at hlost
  exact (hedit.permitted ht.sound hedited hn hc hlost).bumpPages hd.keyed

/-- A page that belongs to nobody, with a box that belongs to a user, and another box. -/
def lentBox : Tree :=
  (({} : Tree).load (.mk (some 1) { kind := .page "home" 0 false } none
    [.mk (some 2) { kind := .element "main" ∅, properties := { owner := some "ada" } } none [],
      .mk (some 3) { kind := .element "footer" ∅ } none []])).2

/-- The user who owns the box. -/
def tenant : Editor := ⟨.user "ada" false, .byGrants, .reject⟩

theorem reachable_lentBox : lentBox.Reachable .successful :=
  .load .empty _ ⟨1, by decide⟩

/-- The other box moves into the one that the user owns. -/
theorem departure_permitted_lentBox :
    3 ∈ lentBox.children 1 ∧
    (run tenant (Edit.append 2 3) ⟨lentBox, {}⟩).1 = .ok 3 ∧
    3 ∉ (run tenant (Edit.append 2 3) ⟨lentBox, {}⟩).2.tree.children 1 ∧
    ∃ n, lentBox.node? 1 = some n ∧ (Departure.moved 2).Permitted tenant lentBox
      (run tenant (Edit.append 2 3) ⟨lentBox, {}⟩).2.tree n 3 := by
  obtain ⟨n, hn⟩ : ∃ n, lentBox.node? 1 = some n :=
    Option.isSome_iff_exists.mp (by decide)
  have hok : (run tenant (Edit.append 2 3) ⟨lentBox, {}⟩).1 = .ok 3 := by
    decide
  exact ⟨by decide, hok, by decide, n, hn, departure_permitted reachable_lentBox (.append 2 3)
    (Prod.ext hok rfl) hn (by decide) (by decide)⟩

/-- A page with two texts, and a box that has two texts as well. -/
def textsAndBox : Tree :=
  (({} : Tree).load (.mk (some 1) { kind := .page "home" 0 false } none
    [.mk (some 2) { kind := .text "a" none } none [],
      .mk (some 3) { kind := .text "b" none } none [],
      .mk (some 4) { kind := .element "p" ∅ } none
        [.mk (some 5) { kind := .text "c" none } none [],
          .mk (some 6) { kind := .text "d" none } none []]])).2

/-- Nodes may be written while they are the first or the second of their siblings. -/
def leading : Editor := ⟨.anonymous, ⟨fun _ _ => true, fun _ n => n.position ≤ 1⟩, .reject⟩

/-- The page is not asked when it loses a box to the other one. The box with the texts was the third
of its siblings at the beginning, but not any more when its turn came. -/
theorem departures_unasked :
    (lentBox.Reachable .successful ∧
      (lentBox.node? 1).map (tenant.access.canWrite tenant.principal) = some false ∧
      (run tenant (Edit.append 2 3) ⟨lentBox, {}⟩).1 = .ok 3 ∧
      lentBox.children 1 = [2, 3] ∧
      (run tenant (Edit.append 2 3) ⟨lentBox, {}⟩).2.tree.children 1 = [2]) ∧
    textsAndBox.Reachable .successful ∧
      (textsAndBox.node? 4).map (leading.access.canWrite leading.principal) = some false ∧
      (run leading (Edit.normalize 1) ⟨textsAndBox, {}⟩).1 = .ok () ∧
      textsAndBox.children 4 = [5, 6] ∧
      (run leading (Edit.normalize 1) ⟨textsAndBox, {}⟩).2.tree.children 4 = [5] :=
  ⟨⟨reachable_lentBox, by decide, by decide, by decide, by decide⟩,
    .load .empty _ ⟨1, by decide⟩, by decide, by decide, by decide, by decide⟩

/-! ### Without write access -/

/-- Whoever may write no node leaves all nodes as they are, whatever operations a transaction is
composed of, whether or not they are refused, and however the transaction ends. There can only be
new nodes that stand apart. Merges do the same. -/
theorem untouched_of_unwritable {counts : Tree.Loads} (ht : t.Reachable counts)
    (he : ∀ n, editor.access.canWrite editor.principal n = false) (store : Store) :
    (∀ {α : Type} {edit : Edit α}, edit.Composed →
      t.Untouched (run editor edit ⟨t, store⟩).2.tree) ∧
    ∀ (settings : Merge.Settings) (root : NodeId) (target : Tree) (targetRoot : NodeId),
      t.Untouched (merge editor settings root target targetRoot ⟨t, store⟩).2.tree := by
  have hwrites : ¬ editor.Writes := fun ⟨n, hn⟩ => Bool.false_ne_true ((he n).symm.trans hn)
  have hrun : ∀ {α : Type} {edit : Edit α}, edit.Composed →
      t.Untouched (run editor edit ⟨t, store⟩).2.tree := fun hedit =>
    Tree.run_induction ht.sound editor hedit store (.refl t)
      (fun d hchanges => hchanges.untouched ht.sound hwrites)
      fun d page hd h => .trans hd.toWellFormed h (.bumpVersion hd.keyed page)
  refine ⟨hrun, fun settings root target targetRoot => ?_⟩
  rcases merge_cases editor settings root target targetRoot ⟨t, store⟩ with
    ⟨err, hmerge⟩ | ⟨edit, hedit, hmerge⟩
  · rw [hmerge]
    exact .refl t
  · rw [hmerge]
    exact hrun hedit

/-- Nobody in particular, who owns nothing and is granted nothing. -/
def visitor : Editor := ⟨.anonymous, .byGrants, .reject⟩

/-- A text is copied, and nearly goes to the trash. -/
def copyAndTrash (id : NodeId) : Edit NodeId := do
  let copied ← Edit.clone id false
  tryCatch (Edit.trash id) fun _ => pure ()
  return copied

/-- The copy is there in the end. A merge cannot do more. -/
theorem untouched_of_unwritable_visitor :
    (∀ n, visitor.access.canWrite visitor.principal n = false) ∧
    (run visitor (copyAndTrash 2) ⟨(({} : Tree).load Tree.twoTexts).2, {}⟩).1 = .ok 4 ∧
    (({} : Tree).load Tree.twoTexts).2.Untouched
      (run visitor (copyAndTrash 2) ⟨(({} : Tree).load Tree.twoTexts).2, {}⟩).2.tree ∧
    (({} : Tree).load Tree.twoTexts).2.Untouched
      (merge visitor {} 1 textsAndBox 1 ⟨(({} : Tree).load Tree.twoTexts).2, {}⟩).2.tree := by
  have he : ∀ n, visitor.access.canWrite visitor.principal n = false := fun _ => rfl
  have huntouched := untouched_of_unwritable Tree.reachable_twoTexts he {}
  refine ⟨he, by decide, huntouched.1 ?_, huntouched.2 {} 1 textsAndBox 1⟩
  exact .bind (.clone 2 false) fun copied =>
    .bind (.tryCatch (.trash 2) fun _ => .pure ()) fun _ => .pure copied

end Session

end ContentTree
