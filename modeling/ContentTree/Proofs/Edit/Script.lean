import ContentTree.Proofs.Edit.Composed
import ContentTree.Proofs.Edit.Unversioned

/-!
# Scripts

A script tells which operations are called, one after the other, and which of the calls make up
transactions. Transactions may contain further ones, which join them. What the calls return is
collected in the order of the calls.

## Main definitions

* `Edit.Call`, `Edit.Answer`: a call of an operation, and what it returns.
* `Edit.Script`: calls, and transactions around parts of a script.

## Main results

* `Call.composed`, `Call.ignoresVersions`: what holds of all operations.
* `Script.edit_eq`: within a transaction, a script does what its calls do.
-/

namespace ContentTree

namespace Edit

/-! ### Calls -/

/-- A call of an operation. -/
inductive Call
  | append (parent child : NodeId)
  | insertBefore (parent child : NodeId) (reference : Option NodeId)
  | replace (parent child old : NodeId)
  | remove (parent child : NodeId)
  | clone (id : NodeId) (deep : Bool)
  | normalize (id : NodeId)
  | create (document : Option NodeId) (content : Content)
  | adopt (page id : NodeId)
  | importNode (page id : NodeId) (deep : Bool)
  | trash (id : NodeId)
  | update (id : NodeId) (content : Content)
  | link (mirror component : NodeId)
  | unlink (mirror : NodeId)
  | share (id : NodeId)

/-- What an operation returns. -/
inductive Answer
  | done
  | node (id : NodeId)
  | component (id : Option NodeId)
deriving DecidableEq

namespace Call

/-- The operation that is called. -/
def edit : Call → Edit Answer
  | append parent child => return .node (← Edit.append parent child)
  | insertBefore parent child reference =>
    return .node (← Edit.insertBefore parent child reference)
  | replace parent child old => return .node (← Edit.replace parent child old)
  | remove parent child => return .node (← Edit.remove parent child)
  | clone id deep => return .node (← Edit.clone id deep)
  | normalize id => do
    Edit.normalize id
    return .done
  | create document content => return .node (← Edit.create document content)
  | adopt page id => return .node (← Edit.adopt page id)
  | importNode page id deep => return .node (← Edit.importNode page id deep)
  | trash id => do
    Edit.trash id
    return .done
  | update id content => do
    Edit.update id content
    return .done
  | link mirror component => do
    Edit.link mirror component
    return .done
  | unlink mirror => return .component (← Edit.unlink mirror)
  | share id => return .node (← Edit.share id)

theorem composed (c : Call) : c.edit.Composed := by
  cases c with
  | append parent child => exact .bind (.append parent child) fun _ => .pure _
  | insertBefore parent child reference =>
    exact .bind (.insertBefore parent child reference) fun _ => .pure _
  | replace parent child old => exact .bind (.replace parent child old) fun _ => .pure _
  | remove parent child => exact .bind (.remove parent child) fun _ => .pure _
  | clone id deep => exact .bind (.clone id deep) fun _ => .pure _
  | normalize id => exact .bind (.normalize id) fun _ => .pure _
  | create document content => exact .bind (.create document content) fun _ => .pure _
  | adopt page id => exact .bind (.adopt page id) fun _ => .pure _
  | importNode page id deep => exact .bind (.importNode page id deep) fun _ => .pure _
  | trash id => exact .bind (.trash id) fun _ => .pure _
  | update id content => exact .bind (.update id content) fun _ => .pure _
  | link mirror component => exact .bind (.link mirror component) fun _ => .pure _
  | unlink mirror => exact .bind (.unlink mirror) fun _ => .pure _
  | share id => exact .bind (.share id) fun _ => .pure _

theorem ignoresVersions {e : Editor} (he : e.access.IgnoresVersions) (c : Call) :
    IgnoresVersions e c.edit := by
  cases c with
  | append parent child => exact (ignoresVersions_append he parent child).map _
  | insertBefore parent child reference =>
    exact (ignoresVersions_insertBefore he parent child reference).map _
  | replace parent child old => exact (ignoresVersions_replace he parent child old).map _
  | remove parent child => exact (ignoresVersions_remove he parent child).map _
  | clone id deep => exact (ignoresVersions_clone id deep).map _
  | normalize id => exact (ignoresVersions_normalize he id).map _
  | create document content => exact (ignoresVersions_create he document content).map _
  | adopt page id => exact (ignoresVersions_adopt he id page).map _
  | importNode page id deep => exact (ignoresVersions_importNode he id page deep).map _
  | trash id => exact (ignoresVersions_trash he id).map _
  | update id content => exact (ignoresVersions_update he id content).map _
  | link mirror component => exact (ignoresVersions_link he mirror component).map _
  | unlink mirror => exact (ignoresVersions_unlink he mirror).map _
  | share id => exact (ignoresVersions_share he id).map _

/-- Any number of calls, one after the other. -/
theorem composed_mapM (calls : List Call) : (calls.mapM edit).Composed := by
  induction calls with
  | nil => exact .pure []
  | cons c calls ih =>
    rw [List.mapM_cons]
    exact .bind c.composed fun _ => .bind ih fun _ => .pure _

theorem ignoresVersions_mapM {e : Editor} (he : e.access.IgnoresVersions) (calls : List Call) :
    IgnoresVersions e (calls.mapM edit) := by
  induction calls with
  | nil => exact .pure rfl
  | cons c calls ih =>
    rw [List.mapM_cons]
    refine .bind (c.ignoresVersions he) fun a b hab => ?_
    subst hab
    exact ih.map _

end Call

/-! ### Transactions around calls -/

/-- Calls, and transactions around parts of a script. -/
inductive Script
  | call (c : Call)
  | transaction (body : List Script)

namespace Script

/-- Induction over a script, given the parts of transactions. -/
@[elab_as_elim, induction_eliminator]
theorem inductionOn {motive : Script → Prop} (s : Script) (call : ∀ c, motive (call c))
    (transaction : ∀ body, (∀ s ∈ body, motive s) → motive (transaction body)) : motive s := by
  refine @Script.rec motive (fun body => ∀ s ∈ body, motive s) call transaction ?_ ?_ s
  · simp
  · intro s body hs hbody
    simpa using ⟨hs, hbody⟩

/-- The calls in a script, in their order. -/
def calls : Script → List Call
  | call c => [c]
  | transaction body => allCalls body
where
  allCalls : List Script → List Call
    | [] => []
    | s :: rest => calls s ++ allCalls rest

/-- What a script does within a transaction, and the answers to its calls. Transactions in it join
the one around it. -/
def edit : Script → Edit (List Answer)
  | call c => return [← c.edit]
  | transaction body => editAll body
where
  editAll : List Script → Edit (List Answer)
    | [] => return []
    | s :: rest => return (← edit s) ++ (← editAll rest)

/-- Within a transaction, a script does what its calls do one after the other. -/
theorem edit_eq (s : Script) : s.edit = s.calls.mapM Call.edit := by
  induction s with
  | call c => simp [edit, calls]
  | transaction body ih =>
    have hall : ∀ body : List Script, (∀ s ∈ body, s.edit = s.calls.mapM Call.edit) →
        edit.editAll body = (calls.allCalls body).mapM Call.edit := by
      intro body hbody
      induction body with
      | nil => rfl
      | cons s rest ihrest =>
        rw [edit.editAll, calls.allCalls, List.mapM_append, hbody s List.mem_cons_self,
          ihrest fun s hs => hbody s (List.mem_cons_of_mem _ hs)]
    exact hall body ih

theorem composed (s : Script) : s.edit.Composed := by
  rw [edit_eq]
  exact Call.composed_mapM _

end Script

end Edit

end ContentTree
