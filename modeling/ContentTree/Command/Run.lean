import ContentTree.Command.Page
import ContentTree.Command.Request
import ContentTree.Outline

/-!
# Running commands

A command reads documents from files, works on them, prints what there is to say and writes at most
one file. The machine it runs on is given by a few operations, so that a command can also run on
files that exist in memory only.

## Main definitions

* `Finding`, `Host`: the machine.
* `Run`: commands in progress.
* `run`: answers arguments, with the code that the command ends with.
-/

namespace ContentTree.Command

/-- What is found at a path. -/
inductive Finding
  | nothing
  /-- There is something, but it has no text. -/
  | unreadable
  | text (content : String)

/-- The machine that commands run on. -/
structure Host (m : Type → Type) where
  /-- Looks at a path. -/
  read : String → m Finding
  /-- Replaces the text of a file, and tells whether that worked. -/
  write : String → String → m Bool
  /-- Prints a text. -/
  print : String → m Unit
  /-- Prints a complaint. -/
  complain : String → m Unit

/-- A command in progress, which may fail. What it has printed by then stays printed. -/
abbrev Run (m : Type → Type) (α : Type) := ReaderT (Host m) (ExceptT CommandError m) α

variable {m : Type → Type} [Monad m]

namespace Run

/-- Something that only the machine can do. -/
def ask {α : Type} (question : Host m → m α) : Run m α := fun host => ExceptT.lift (question host)

/-- Prints lines. -/
def say (lines : List String) : Run m Unit :=
  ask fun host => host.print (String.join (lines.map (· ++ "\n")))

/-- Something that may have failed. -/
def require {α : Type} (result : Except CommandError α) : Run m α :=
  fun _ => ExceptT.mk (pure result)

/-- What the document found at a path stands for. -/
def parse {α : Type} (read? : Json → Option α) (path : String) : Finding → Except CommandError α
  | .text content =>
    match (Json.read? content).bind read? with
    | some a => .ok a
    | none => .error (.malformed path)
  | _ => .error (.unreadable path)

/-- What the document in a file stands for. -/
def load {α : Type} (read? : Json → Option α) (path : String) : Run m α := do
  require (parse read? path (← ask (·.read path)))

/-- Replaces the text of a file. -/
def save (path text : String) : Run m Unit := do
  if !(← ask (·.write path text)) then throw (.unwritable path)

/-- The configuration in a directory. Where there is none, the defaults hold. -/
def configuration (directory : String) : Run m Configuration := do
  let path := joinPath directory Configuration.fileName
  match ← ask (·.read path) with
  | .nothing => return {}
  | found => require (parse Configuration.ofJson? path found)

/-- Writes a page as HTML. -/
def render (directory : String) (r : RenderRequest) : Run m Unit := do
  let c ← configuration directory
  let mode := r.mode.getD c.editMode
  let snapshot ← load Snapshot.ofJson? r.input
  let fixtures ← match r.fixtures.or (c.fixturesPath? directory) with
    | some path => load View.Fixtures.ofJson? path
    | none => pure {}
  let output ← require <| renderPage snapshot fixtures {
    mode
    locale := r.locale.getD c.locale
    principal := .ofText (r.principal.getD c.principal)
    details := r.details
    parameters := r.parameters
    settings := c.viewSettings }
  match r.output with
  | some path =>
    save path output.html
    say [s!"✓ {path} ({output.nodesRendered} nodes, {mode.word} mode)"]
  | none => say [output.html]
  if output.aborted then say ["⚠ Render aborted before completion"]

/-- One line of a report. -/
def reportLine (entry : Merge.Operation × Merge.Outcome) : String :=
  match entry.2 with
  | .applied => "   ✓ " ++ entry.1.text
  | .skipped reason => "   - " ++ entry.1.text ++ " (" ++ reason.text ++ ")"

/-- Merges a page into another. -/
def merge (directory : String) (r : MergeRequest) : Run m Unit := do
  let c ← configuration directory
  say ["🔀 Starting Pagetree Merge", "   Existing: " ++ r.existing, "   Target:   " ++ r.target, ""]
  let existing ← load Snapshot.ofJson? r.existing
  let target ← load Snapshot.ofJson? r.target
  let principal := Principal.ofText (r.principal.getD c.principal)
  let (merged, report) ← require (mergePages existing target c principal)
  say (report.entries.map reportLine)
  say ["", s!"   {report.applied.length} applied, {report.skipped.length} skipped"]
  if r.dryRun then return
  match r.output with
  | some path =>
    save path merged.pretty
    say ["", "✨ Done Merged page written to " ++ path]
  | none => say ["", merged.pretty]

/-- Shows the structure of a page. -/
def inspect (r : InspectRequest) : Run m Unit := do
  say ["🔍 Inspecting " ++ r.input, ""]
  let snapshot ← load Snapshot.ofJson? r.input
  let (root, t) ← require (loadPage snapshot)
  say ((t.outline root r.fingerprints).map ("   " ++ ·))
  let counts := (t.kindCounts root).toList.map fun (kind, n) => s!"{n} {kind}"
  say ["", "   " ++ ", ".intercalate counts]

/-- Does what is asked for. -/
def request (directory : String) : Request → Run m Unit
  | .render r => render directory r
  | .merge r => merge directory r
  | .inspect r => inspect r

end Run

/-- Runs a command in a directory. The code is 0 when it succeeds, 1 when it fails and 2 when the
arguments make no sense. -/
def run (host : Host m) (directory : String) (args : List String) : m UInt32 := do
  match Request.ofArguments args with
  | .error .help =>
    host.print usage
    return 0
  | .error .version =>
    host.print "pagetree 0.1.0\n"
    return 0
  | .error (.misuse cause) =>
    host.complain ("error: " ++ cause.message ++ "\n\n" ++ usage)
    return 2
  | .ok r =>
    match ← (Run.request directory r).run host |>.run with
    | .ok () => return 0
    | .error e =>
      host.complain ("\nError: " ++ e.message ++ "\n\n")
      return 1

end ContentTree.Command
