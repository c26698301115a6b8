import ContentTree.Node.Basic
import Std.Data.ExtTreeSet

/-!
# The node store

A store keeps the nodes of committed transactions. Writes are staged while a transaction is open and
take effect when it is committed; a rollback drops them. A store can be told to refuse its next
commit, the next write of a certain node, or to complain about its next rollback.

## Main definitions

* `Store`, `StoreError`: stores and their refusals.
* `begin`, `commit`, `rollback`: the life of a transaction.
* `persist`, `delete`, `load`: staged writes and reads.
-/

namespace ContentTree

/-- The refusals of a store. -/
inductive StoreError
  | noTransaction
  | transactionInProgress
  | commitFailed (reason : String)
  | nodeNotFound (id : NodeId)
deriving DecidableEq

/-- The wording of a refusal. -/
def StoreError.message : StoreError → String
  | noTransaction => "No transaction in progress"
  | transactionInProgress => "Transaction already in progress"
  | commitFailed reason => s!"Commit failed: {reason}"
  | nodeNotFound id => s!"Node not found in store: {id.text}"

/-- A store of nodes. -/
structure Store where
  committed : Std.ExtTreeMap NodeId Node := ∅
  /-- The writes of the open transaction; nothing for a node that is to be deleted. -/
  staged : Option (Std.ExtTreeMap NodeId (Option Node)) := none
  /-- How many transactions have been committed. -/
  commits : Nat := 0
  /-- The reason for which the next commit will be refused. -/
  refuseCommit : Option String := none
  /-- The nodes whose next write will be refused. -/
  refusePersist : Std.ExtTreeSet NodeId := ∅
  /-- Whether the next rollback will report a failure. -/
  refuseRollback : Bool := false

namespace Store

/-- What a call leaves: a result or a refusal, and the store. -/
abbrev Outcome (α : Type) := Except StoreError α × Store

/-- Opens a transaction. -/
def begin (s : Store) : Outcome Unit :=
  match s.staged with
  | some _ => (.error .transactionInProgress, s)
  | none => (.ok (), { s with staged := some ∅ })

/-- The committed nodes after the staged writes. -/
def merged (committed : Std.ExtTreeMap NodeId Node)
    (staged : Std.ExtTreeMap NodeId (Option Node)) : Std.ExtTreeMap NodeId Node :=
  staged.foldl
    (fun nodes id write =>
      match write with
      | some n => nodes.insert id n
      | none => nodes.erase id)
    committed

/-- Closes the transaction and makes its writes last, unless the commit is to be refused. -/
def commit (s : Store) : Outcome Unit :=
  match s.staged with
  | none => (.error .noTransaction, s)
  | some staged =>
    let s := { s with staged := none }
    match s.refuseCommit with
    | some reason => (.error (.commitFailed reason), { s with refuseCommit := none })
    | none =>
      (.ok (), { s with committed := merged s.committed staged, commits := s.commits + 1 })

/-- Closes the transaction and drops its writes. A failure that is to be reported is reported also
where no transaction is open. -/
def rollback (s : Store) : Outcome Unit :=
  let closed := { s with staged := none, refuseRollback := false }
  if s.refuseRollback then (.error (.commitFailed "rollback refused"), closed)
  else
    match s.staged with
    | none => (.error .noTransaction, s)
    | some _ => (.ok (), closed)

/-- Stages a write. -/
def stage (s : Store) (id : NodeId) (write : Option Node) : Outcome Unit :=
  match s.staged with
  | none => (.error .noTransaction, s)
  | some staged => (.ok (), { s with staged := some (staged.insert id write) })

/-- Stages a node, unless its next write is to be refused. -/
def persist (s : Store) (n : Node) : Outcome Unit :=
  if s.refusePersist.contains n.id then
    (.error (.commitFailed s!"persist of {n.id.text} refused"),
      { s with refusePersist := s.refusePersist.erase n.id })
  else s.stage n.id (some n)

/-- Stages the removal of a node. -/
def delete (s : Store) (id : NodeId) : Outcome Unit :=
  s.stage id none

/-- The node under an identifier, staged writes included. -/
def load (s : Store) (id : NodeId) : Except StoreError Node :=
  let found := match s.staged.bind (·[id]?) with
    | some write => write
    | none => s.committed[id]?
  match found with
  | some n => .ok n
  | none => .error (.nodeNotFound id)

end Store

end ContentTree
