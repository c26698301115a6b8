import ContentTree.Merge.Apply
import ContentTree.Proofs.Edit.Tame

/-!
# Composed edits

A transaction may consist of any number of operations, each depending on what came before it. Inner
transactions join the outer one, so that they are nothing but parts of it, and any part may be
guarded against refusals. Merges are composed of operations, too.

## Main definitions

* `Edit.Composed`: edits that are composed of the operations in any way.

## Main results

* `Composed.changes`: composed edits make changes only.
* `Merge.Apply.composed_plan`, `Merge.Apply.composed_merge`: so are merges.
-/

namespace ContentTree

namespace Edit

variable {α : Type}

/-- Edits that are composed of the operations in any way: one after the other, depending on what
came before and on the tree, with refusals caught or not. -/
inductive Composed : {α : Type} → Edit α → Prop
  | pure {α : Type} (a : α) : Composed (Pure.pure a)
  | throw {α : Type} (err : TreeError) : Composed (α := α) (MonadExcept.throw err)
  | read : Composed (MonadReader.read : Edit Editor)
  | tree : Composed Edit.tree
  | bind {α β : Type} {x : Edit α} {f : α → Edit β} (hx : Composed x) (hf : ∀ a, Composed (f a)) :
    Composed (x >>= f)
  | tryCatch {α : Type} {x : Edit α} {f : TreeError → Edit α} (hx : Composed x)
    (hf : ∀ err, Composed (f err)) : Composed (MonadExcept.tryCatch x f)
  | append (parent child : NodeId) : Composed (append parent child)
  | insertBefore (parent child : NodeId) (reference : Option NodeId) :
    Composed (insertBefore parent child reference)
  | replace (parent child old : NodeId) : Composed (replace parent child old)
  | remove (parent child : NodeId) : Composed (remove parent child)
  | clone (id : NodeId) (deep : Bool) : Composed (clone id deep)
  | normalize (id : NodeId) : Composed (normalize id)
  | create (document : Option NodeId) (content : Content) : Composed (create document content)
  | adopt (page id : NodeId) : Composed (adopt page id)
  | importNode (page id : NodeId) (deep : Bool) : Composed (importNode page id deep)
  | trash (id : NodeId) : Composed (trash id)
  | update (id : NodeId) (content : Content) : Composed (update id content)
  | link (mirror component : NodeId) : Composed (link mirror component)
  | unlink (mirror : NodeId) : Composed (unlink mirror)
  | share (id : NodeId) : Composed (share id)

/-- Composed edits make changes only. -/
theorem Composed.changes {x : Edit α} (hx : Composed x) (e : Editor) :
    ∀ d : Draft, d.tree.Sound → d.Changes e (x.run e d).2 := by
  induction hx with
  | pure a => exact fun _ _ => Tame.pure a
  | throw err => exact fun _ _ => Tame.throw err
  | read => exact fun _ _ => .refl
  | tree => exact fun _ _ => .refl
  | bind _ _ ihx ihf => exact fun d hd => Tame.bind (ihx d hd) fun a d' hc => ihf a d' (hc.sound hd)
  | tryCatch _ _ ihx ihf =>
    exact fun d hd => Tame.tryCatch (ihx d hd) fun err d' hc => ihf err d' (hc.sound hd)
  | append parent child => exact fun d _ => tame_append e d parent child
  | insertBefore parent child reference =>
    exact fun d _ => tame_insertBefore e d parent child reference
  | replace parent child old => exact fun d _ => tame_replace e d parent child old
  | remove parent child => exact fun d _ => tame_remove e d parent child
  | clone id deep => exact fun d _ => tame_clone e d id deep
  | normalize id => exact fun d hd => tame_normalize hd id
  | create document content => exact fun d _ => tame_create e d document content
  | adopt page id => exact fun d _ => tame_adopt e d id page
  | importNode page id deep => exact fun d _ => tame_importNode e d id page deep
  | trash id => exact fun d _ => tame_trash e d id
  | update id content => exact fun d _ => tame_update e d id content
  | link mirror component => exact fun d _ => tame_link e d mirror component
  | unlink mirror => exact fun d _ => tame_unlink e d mirror
  | share id => exact fun d _ => tame_share e d id

end Edit

/-! ### Merges -/

namespace Merge.Apply

open Edit (Composed)

variable (settings : Settings) (index : KeyIndex)

theorem composed_climb (parent id : NodeId) (attempts : Nat) :
    ∀ anchor, Composed (climb parent id attempts anchor) := by
  induction attempts with
  | zero => exact fun _ => .pure false
  | succ attempts ih =>
    intro anchor
    cases anchor with
    | none => exact .pure false
    | some anchor =>
      have htry : Composed (tryCatch (do
          let _ ← Edit.insertBefore parent id (some anchor)
          return true) fun _ => return false : Edit Bool) :=
        .tryCatch (.bind (.insertBefore parent id (some anchor)) fun _ => .pure true)
          fun _ => .pure false
      refine .bind htry fun placed => ?_
      cases placed
      · exact .bind .tree fun t => ih _
      · exact .pure true

theorem composed_move (p : Position) (id : NodeId) : Composed (move settings p id) := by
  refine .bind .tree fun t => ?_
  cases t.isSynced p.parent
  · cases standsAt t p id
    · refine .bind (composed_climb p.parent id settings.maxAscent p.before) fun placed => ?_
      cases placed
      · exact .bind (.append p.parent id) fun _ => .pure _
      · exact .pure _
    · exact .pure _
  · exact .pure _

theorem composed_create (p : Position) (content : Content) : Composed (create p content) :=
  .bind .tree fun _ => .bind (.create _ content) fun _ => .bind .tree fun _ => .insertBefore _ _ _

theorem composed_operation (o : Operation) : Composed (operation settings index o) := by
  cases o with
  | delete id =>
    refine .bind .tree fun t => ?_
    cases t.contains id
    · exact .pure _
    · cases belowSynced t id
      · exact .bind (.trash id) fun _ => .pure _
      · exact .pure _
  | create destination key content =>
    refine .bind .tree fun t => ?_
    split
    · exact .pure _
    · next p _ =>
      cases t.isSynced p.parent
      · exact .bind (composed_create p content) fun _ => .pure _
      · exact .pure _
  | move destination key id =>
    refine .bind .tree fun t => ?_
    split
    · exact .pure _
    · next p _ =>
      split
      · exact .pure _
      · exact .bind (composed_move settings p _) fun _ => .pure _
  | update key id content =>
    refine .bind .tree fun t => ?_
    split
    · exact .pure _
    · cases belowSynced t id
      · exact .bind (.update id _) fun _ => .pure _
      · exact .pure _

theorem composed_operations (operations : List Operation) :
    ∀ index, Composed (Apply.operations settings index operations) := by
  induction operations with
  | nil => exact fun _ => .pure []
  | cons o rest ih =>
    exact fun index => .bind (composed_operation settings index o) fun r =>
      .bind (ih r.2) fun _ => .pure _

/-- Carrying out a merge plan is an edit that is composed of the operations. -/
theorem composed_plan (p : Plan) : Composed (plan settings p) :=
  .bind (composed_operations settings _ p.index) fun _ => .pure _

/-- A merge within a transaction: the plan is made from the tree as it is at that moment, and where
there is none, anything may be done instead. -/
theorem composed_merge {α : Type} (root : NodeId) (target : Tree) (targetRoot : NodeId)
    {next : Report → Edit α} {refuse : MergeError → Edit α} (hnext : ∀ r, Composed (next r))
    (hrefuse : ∀ err, Composed (refuse err)) :
    Composed (do
      match Merge.plan (← Edit.tree) root target targetRoot with
      | .ok p => next (← plan settings p)
      | .error err => refuse err) := by
  refine .bind .tree fun t => ?_
  cases Merge.plan t root target targetRoot with
  | ok p => exact .bind (composed_plan settings p) hnext
  | error err => exact hrefuse err

end Merge.Apply

end ContentTree
