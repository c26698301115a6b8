import ContentTree.Merge.Apply
import ContentTree.Proofs.Edit.Tame

/-!
# What operations of a merge lead to

An operation of a plan looks at the tree and then carries out one or two edits, or is skipped. What
the edits lead to, the operation leads to. An edit that is tried at several places and refused there
counts as often as it is tried.

## Main results

* `Apply.leads_move`: moves, whatever places are tried.
* `Apply.leads_operation`: single operations, by what was found before.
* `Apply.leads_operations`: operations one after the other.
-/

namespace ContentTree.Merge.Apply

open ContentTree.Edit (Leads)

variable {R : Draft → Draft → Prop} [IsPreorder Draft R] {e : Editor} {d : Draft} {p id : NodeId}
  {settings : Settings} {index : KeyIndex}

theorem leads_climb (hinsert : ∀ d', R d d' → ∀ reference,
      Leads R e d' (Edit.insert p id reference)) (attempts : Nat) :
    ∀ anchor d', R d d' → Leads R e d' (climb p id attempts anchor) := by
  induction attempts with
  | zero => exact fun _ _ _ => .pure false
  | succ attempts ih =>
    intro anchor d' hd
    cases anchor with
    | none => exact .pure false
    | some anchor =>
      have htry : Leads R e d' (tryCatch (do
          let _ ← Edit.insertBefore p id (some anchor)
          return true) fun _ => return false : Edit Bool) :=
        .tryCatch (.bind (.bind (hinsert d' hd (some anchor)) fun _ _ _ _ => .pure id)
          fun _ _ _ _ => .pure true) fun _ _ _ => .pure false
      refine .bind htry fun placed d'' _ h => ?_
      cases placed
      · exact .tree_bind (ih _ d'' (trans_of R hd h))
      · exact .pure true

/-- A node is inserted once or several times below the same parent, which is not synced. -/
theorem leads_move {position : Position}
    (hinsert : d.tree.isSynced position.parent = false → ∀ d', R d d' → ∀ reference,
      Leads R e d' (Edit.insert position.parent id reference)) :
    Leads R e d (move settings position id) := by
  refine .tree_bind ?_
  cases hp : d.tree.isSynced position.parent with
  | true => exact .pure _
  | false =>
    cases standsAt d.tree position id
    · refine .bind (leads_climb (hinsert hp) _ _ d (refl_of R d)) fun placed d' _ hd => ?_
      cases placed
      · exact .bind (.bind (hinsert hp d' hd none) fun _ _ _ _ => .pure id) fun _ _ _ _ => .pure _
      · exact .pure _
    · exact .pure _

/-- An operation leads to what its edits lead to, with what was found before them. -/
theorem leads_operation {o : Operation}
    (hdelete : ∀ id, o = .delete id → Leads R e d (Edit.trash id))
    (hcreate : ∀ destination key content position, o = .create destination key content →
      destination.find? d.tree index = some position → d.tree.isSynced position.parent = false →
      Leads R e d (create position content))
    (hmove : ∀ destination key id position x, o = .move destination key id →
      destination.find? d.tree index = some position → id.or index[key]? = some x →
      Leads R e d (move settings position x))
    (hupdate : ∀ key id content n, o = .update key id content → d.tree.node? id = some n →
      Leads R e d (Edit.update id (keepOwner content n))) :
    Leads R e d (operation settings index o) := by
  cases o with
  | delete id =>
    refine .tree_bind ?_
    cases d.tree.contains id
    · exact .pure _
    · cases belowSynced d.tree id
      · exact .bind (hdelete id rfl) fun _ _ _ _ => .pure _
      · exact .pure _
  | create destination key content =>
    refine .tree_bind ?_
    split
    · exact .pure _
    · next position hposition =>
      cases hp : d.tree.isSynced position.parent
      · exact .bind (hcreate _ _ _ _ rfl hposition hp) fun _ _ _ _ => .pure _
      · exact .pure _
  | move destination key id =>
    refine .tree_bind ?_
    split
    · exact .pure _
    · next position hposition =>
      split
      · exact .pure _
      · next x hx =>
        exact .bind (hmove _ _ _ _ x rfl hposition (Option.filter_eq_some_iff.mp hx).1)
          fun _ _ _ _ => .pure _
  | update key id content =>
    refine .tree_bind ?_
    split
    · exact .pure _
    · next n hn =>
      cases belowSynced d.tree id
      · exact .bind (hupdate _ _ _ n rfl hn) fun _ _ _ _ => .pure _
      · exact .pure _

/-- Where something about the index and the draft holds before every operation, and is enough for
it, operations can be carried out one after the other. -/
theorem leads_operations {P : KeyIndex → Draft → Prop} (os : List Operation)
    (hoperation : ∀ o ∈ os, ∀ index d, P index d → Leads R e d (operation settings index o))
    (hnext : ∀ o ∈ os, ∀ index d r d', P index d →
      (operation settings index o).run e d = (.ok r, d') → R d d' → P r.2 d') :
    ∀ index d, P index d → Leads R e d (operations settings index os) := by
  induction os with
  | nil => exact fun _ _ _ => .pure []
  | cons o rest ih =>
    intro index d hd
    refine .bind (hoperation o List.mem_cons_self index d hd) fun r d' hrun h => ?_
    have hd' := hnext o List.mem_cons_self index d r d' hd hrun h
    refine .bind (ih (fun o ho => hoperation o (List.mem_cons_of_mem _ ho))
      (fun o ho => hnext o (List.mem_cons_of_mem _ ho)) r.2 d' hd') fun _ _ _ _ => .pure _

end ContentTree.Merge.Apply
