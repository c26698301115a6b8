import ContentTree.Edit.Basic
import ContentTree.Store

/-!
# Transactions

A session is a tree and the store that keeps it. A transaction runs an edit on a draft of the tree.
When the edit succeeds, the version of every page with a touched node goes up, the touched nodes are
written to the store, and the store commits. When anything fails on the way, the tree goes back to
what it was and the store drops what it was given.

## Main definitions

* `Session`: a tree and a store.
* `TransactionError`: a refusal of the tree or of the store.
* `Draft.touchedPages`, `Draft.bumpPages`: the pages whose version goes up.
* `Session.run`: runs an edit as one transaction.
-/

namespace ContentTree

/-- A tree and the store that keeps it. -/
structure Session where
  tree : Tree := {}
  store : Store := {}

/-- Why a transaction failed. -/
inductive TransactionError
  | tree (cause : TreeError)
  | store (cause : StoreError)
deriving DecidableEq

/-- The wording of a failure. -/
def TransactionError.message : TransactionError → String
  | tree cause => cause.message
  | store cause => s!"Store failure: {cause.message}"

namespace Draft

/-- The pages a touched node counts for: the page that encloses it, or else those that enclose its
mirrors. -/
def pagesOf (t : Tree) (id : NodeId) : List NodeId :=
  if t.contains id then
    match t.closestPage? id with
    | some page => [page]
    | none => (t.sharing.mirrorsOf id).filterMap t.closestPage?
  else []

/-- The pages with a touched node. -/
def touchedPages (d : Draft) : Std.ExtTreeSet NodeId :=
  (d.touched.flatMap (pagesOf d.tree)).foldl (·.insert ·) ∅

/-- Raises the version of every page with a touched node. -/
def bumpPages (d : Draft) : Draft :=
  d.touchedPages.toList.foldl bumpVersion d

/-- Writes nodes to the store as they are in a tree, up to the first refusal. -/
def persistAll (t : Tree) : List NodeId → Store → Store.Outcome Unit
  | [], s => (.ok (), s)
  | id :: rest, s =>
    let outcome := match t.node? id with
      | some n => s.persist n
      | none => s.delete id
    match outcome with
    | (.ok (), s) => persistAll t rest s
    | (.error e, s) => (.error e, s)

end Draft

namespace Session

/-- Runs an edit as one transaction. -/
def run {α : Type} (editor : Editor) (edit : Edit α) (s : Session) :
    Except TransactionError α × Session :=
  match s.store.begin with
  | (.error e, store) => (.error (.store e), ⟨s.tree, store⟩)
  | (.ok (), store) =>
    match edit.run editor (Draft.start s.tree) with
    | (.error e, d) => (.error (.tree e), ⟨d.undo, store.rollback.2⟩)
    | (.ok a, d) =>
      let d := d.bumpPages
      match Draft.persistAll d.tree d.touched store with
      | (.error e, store) => (.error (.store e), ⟨d.undo, store.rollback.2⟩)
      | (.ok (), store) =>
        match store.commit with
        | (.error e, store) => (.error (.store e), ⟨d.undo, store⟩)
        | (.ok (), store) => (.ok a, ⟨d.tree, store⟩)

end Session

end ContentTree
