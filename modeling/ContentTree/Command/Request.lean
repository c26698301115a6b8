import ContentTree.Command.Arguments
import ContentTree.Text.Blank
import ContentTree.View.EditMode

/-!
# Requests

What can be asked for on the command line: writing a page as HTML, merging a page into another, and
looking at the structure of a page.

## Main definitions

* `Request`: what is asked for.
* `Request.ofArguments`: what the arguments ask for.
* `usage`: how to ask.
-/

namespace ContentTree.Command

/-- How a page is to be written. What is absent is taken from the configuration. -/
structure RenderRequest where
  input : String
  mode : Option EditMode := none
  locale : Option String := none
  principal : Option String := none
  fixtures : Option String := none
  /-- The identifier of the object that is looked at. -/
  details : Option String := none
  parameters : List (String × String) := []
  output : Option String := none

/-- Which page is to be merged into which. -/
structure MergeRequest where
  existing : String
  target : String
  principal : Option String := none
  output : Option String := none
  /-- Whether the operations are shown and the result is not. -/
  dryRun : Bool := false

/-- Whose structure is to be shown. -/
structure InspectRequest where
  input : String
  fingerprints : Bool := true

/-- What is asked for. -/
inductive Request
  | render (request : RenderRequest)
  | merge (request : MergeRequest)
  | inspect (request : InspectRequest)

/-- A parameter and its value, around the first equals sign. White space around the name is dropped.
-/
def parameter? (text : String) : Option (String × String) := do
  let (name, value) ← Text.cut? ['='] text.toList
  let name := String.ofList (Text.trimChars name)
  if name.isEmpty then none else some (name, String.ofList value)

/-- An option whose value is a text. -/
def textOption (name : String) (letter : Option Char) : OptionForm :=
  { name, letter, value := some fun _ => true }

/-- An option whose value is a path. -/
def pathOption (name : String) (letter : Option Char) : OptionForm :=
  { name, letter, value := some fun text => !text.isEmpty }

/-- The options that stand before and after the name of a command. -/
def commonOptions : List OptionForm :=
  [{ name := "verbose", letter := some 'v' }, { name := "help", letter := some 'h' }]

/-- What stands before the name of a command. -/
def topForm : Form where
  options := commonOptions ++ [{ name := "version", letter := some 'V' }]

/-- The form of a request to write a page. -/
def renderForm : Form where
  options := commonOptions ++
    [{ name := "mode", letter := some 'm', value := some fun s => (EditMode.ofText? s).isSome },
      textOption "locale" (some 'l'), textOption "principal" (some 'p'),
      pathOption "fixtures" (some 'f'), textOption "details" none,
      { name := "param", value := some fun s => (parameter? s).isSome, repeats := true },
      pathOption "output" (some 'o')]
  operands := ["INPUT"]

/-- The form of a request to merge pages. -/
def mergeForm : Form where
  options := commonOptions ++
    [textOption "principal" (some 'p'), pathOption "output" (some 'o'), { name := "dry-run" }]
  operands := ["EXISTING", "TARGET"]

/-- The form of a request to look at a page. -/
def inspectForm : Form where
  options := commonOptions ++ [{ name := "no-hashes" }]
  operands := ["INPUT"]

/-- How to ask. -/
def usage : String :=
  "Usage: pagetree [-v] COMMAND\n\n" ++
  "  render INPUT [-m MODE] [-l LOCALE] [-p PRINCIPAL] [-f FIXTURES]\n" ++
  "         [--details ID] [--param KEY=VALUE]... [-o OUTPUT]\n" ++
  "  merge EXISTING TARGET [-p PRINCIPAL] [-o OUTPUT] [--dry-run]\n" ++
  "  inspect INPUT [--no-hashes]\n" ++
  "  help [COMMAND]\n"

namespace Request

/-- A request to write a page. -/
def ofRenderArguments (args : List String) : Except Halt Request := do
  let g ← renderForm.read args
  return .render {
    input := g.operands[0]?.getD ""
    mode := (g.value? "mode").bind EditMode.ofText?
    locale := g.value? "locale"
    principal := g.value? "principal"
    fixtures := g.value? "fixtures"
    details := g.value? "details"
    parameters := (g.values "param").filterMap parameter?
    output := g.value? "output" }

/-- A request to merge pages. -/
def ofMergeArguments (args : List String) : Except Halt Request := do
  let g ← mergeForm.read args
  return .merge {
    existing := g.operands[0]?.getD ""
    target := g.operands[1]?.getD ""
    principal := g.value? "principal"
    output := g.value? "output"
    dryRun := g.has "dry-run" }

/-- A request to look at a page. -/
def ofInspectArguments (args : List String) : Except Halt Request := do
  let g ← inspectForm.read args
  return .inspect { input := g.operands[0]?.getD "", fingerprints := !g.has "no-hashes" }

/-- The name of a command with what it asks for. -/
def commands : List (String × (List String → Except Halt Request)) :=
  [("render", ofRenderArguments), ("merge", ofMergeArguments), ("inspect", ofInspectArguments)]

/-- Asking for help by name. One command can be named, or help itself. -/
def ofHelpArguments : List String → Halt
  | [] => .help
  | name :: rest =>
    if (commands.lookup name).isNone && name ≠ "help" then .misuse (.unknownCommand name)
    else
      match rest with
      | [] => .help
      | name :: _ => .misuse (.unknownCommand name)

/-- What the arguments ask for, after some switches in front of the command. -/
def following (g : Given) : List String → Except Halt Request
  | [] => .error (.misuse .missingCommand)
  | arg :: rest =>
    if arg = "--" then .error (.misuse .missingCommand)
    else if isOperand arg then
      if arg = "help" then .error (ofHelpArguments rest)
      else
        match commands.lookup arg with
        | some read => read rest
        | none => .error (.misuse (.unknownCommand arg))
    else do
      let g ← g.addAll topForm (topForm.argument arg).1
      following g rest

/-- What the arguments ask for. -/
def ofArguments (args : List String) : Except Halt Request :=
  following {} args

end Request

end ContentTree.Command
