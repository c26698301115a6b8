import ContentTree.Command.Configuration
import ContentTree.Snapshot.Json
import ContentTree.Snapshot.Load
import ContentTree.View.Pass

/-!
# Pages on the command line

What the commands do with the pages they are given, apart from files and messages. A page is loaded
into a tree of its own.

## Main definitions

* `CommandError`: why a command fails.
* `Wishes`, `renderPage`: writing a page as HTML.
* `mergePages`: merging a page into another.
-/

namespace ContentTree.Command

/-- Why a command fails. -/
inductive CommandError
  | unreadable (path : String)
  | unwritable (path : String)
  /-- A file is no document of the right form. -/
  | malformed (path : String)
  | unknownDetails (id : String)
  | tree (cause : TreeError)
  | merge (cause : Merge.MergeError)
  | view (cause : View.RenderError)

/-- The wording of a failure. -/
def CommandError.message : CommandError → String
  | unreadable path => s!"Cannot read {path}"
  | unwritable path => s!"Cannot write {path}"
  | malformed path => s!"Not a document of the right form: {path}"
  | unknownDetails id => s!"Unknown detail object: {id}"
  | tree cause => cause.message
  | merge cause => cause.message
  | view cause => cause.message

/-- The tree of one page, and its root. -/
def loadPage (s : Snapshot) : Except CommandError (NodeId × Tree) :=
  match ({} : Tree).load s with
  | (.ok root, t) => .ok (root, t)
  | (.error e, _) => .error (.tree e)

/-- For whom and how a page is written. -/
structure Wishes where
  mode : EditMode := .normal
  locale : String := "en"
  principal : Principal := .anonymous
  /-- The identifier of the object that is looked at. -/
  details : Option String := none
  /-- The parameters of the request; the last one of a name counts. -/
  parameters : List (String × String) := []
  settings : View.Settings := {}
  /-- The clock by which values in the cache expire. Unless one is given, no time passes. -/
  clock : Clock := {}

/-- The context that wishes lead to, with the object that is looked at. -/
def Wishes.context (w : Wishes) (details : Option Value) : View.Context where
  principal := w.principal
  locale := w.locale
  requestedMode := w.mode
  details
  parameters := w.parameters.foldl (fun known p => known.insert p.1 p.2) ∅

/-- Writes a page for those who may read it, with prepared objects and answers. -/
def renderPage (s : Snapshot) (fixtures : View.Fixtures) (w : Wishes) :
    Except CommandError View.Output := do
  let (root, t) ← loadPage s
  let details ← match w.details with
    | none => pure none
    | some id =>
      match fixtures.entities[id]? with
      | some v => pure (some v)
      | none => throw (.unknownDetails id)
  let sources :=
    View.Source.standard fixtures.backend View.Pass.evaluate w.settings.detailParameter
  let services := View.Pass.services .byGrants sources
  match View.render services w.settings t root (w.context details) { clock := w.clock } with
  | .ok (output, _) => return output
  | .error e => throw (.view e)

/-- Merges a page into another, in the name of a principal who may write everything. -/
def mergePages (existing target : Snapshot) (c : Configuration) (principal : Principal) :
    Except CommandError (Snapshot × Merge.Report) := do
  let (root, tree) ← loadPage existing
  let (targetRoot, target) ← loadPage target
  let editor : Editor :=
    { principal, access := .unrestricted, syncedParents := c.syncedParents }
  match Session.merge editor c.mergeSettings root target targetRoot { tree } with
  | (.error e, _) => throw (.merge e)
  | (.ok report, s) =>
    match s.tree.export? root with
    | some merged => return (merged, report)
    | none => throw (.tree (.unknownNode root))

end ContentTree.Command
