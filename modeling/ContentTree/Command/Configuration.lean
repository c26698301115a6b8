import ContentTree.Merge.Json
import ContentTree.View.Json

/-!
# Configurations

What the command line takes for granted unless an option says otherwise, as it stands in a file
beside the documents.

## Main definitions

* `Configuration`: configurations, with their defaults.
* `Configuration.ofJson?`, `Configuration.toJson`: configurations as documents.
* `joinPath`: a path seen from a directory.
-/

namespace ContentTree.Command

/-- What is taken for granted. -/
structure Configuration where
  locale : String := "en"
  editMode : EditMode := .normal
  /-- The acting principal, as a text that names it. -/
  principal : String := "anonymous"
  indentHtml : Bool := false
  /-- The path of a file with fixtures, seen from the directory of the configuration. -/
  fixtures : Option String := none
  syncedParents : SyncedParents := .reject
  maxAscent : Nat := 10
deriving DecidableEq

/-- The path that a directory and a path seen from it lead to. -/
def joinPath (directory path : String) : String :=
  if path.startsWith "/" then path
  else if directory.isEmpty || directory.endsWith "/" then directory ++ path
  else directory ++ "/" ++ path

/-- The mode a document stands for. -/
def editModeOfJson? (j : Json) : Option EditMode := do
  let word ← Json.word? .strict j
  EditMode.all.find? (·.word = word)

/-- The policy for synced parents in a record of its own. -/
def editSettingsOfJson? (j : Json) : Option SyncedParents := do
  let fields ← Json.record? ["syncedParentPolicy"] j
  Json.orElse? .reject SyncedParents.ofJson? fields "syncedParentPolicy"

/-- A policy for synced parents as a record of its own. -/
def editSettingsToJson (p : SyncedParents) : Json :=
  .object [("syncedParentPolicy", p.toJson)]

namespace Configuration

/-- The name of the file with a configuration. -/
def fileName : String := "pagetree.config.json"

/-- The configuration a document stands for. -/
def ofJson? (j : Json) : Option Configuration := do
  let fields ← Json.record? ["locale", "editMode", "principal", "indentHtml", "fixtures",
    "syncedParentPolicy", "maxAscentAttempts"] j
  return {
    locale := ← Json.orElse? "en" Json.string? fields "locale"
    editMode := ← Json.orElse? .normal editModeOfJson? fields "editMode"
    principal := ← Json.orElse? "anonymous" Json.string? fields "principal"
    indentHtml := ← Json.orElse? false Json.bool? fields "indentHtml"
    fixtures := ← Json.optional? Json.string? fields "fixtures"
    syncedParents := ← Json.orElse? .reject SyncedParents.ofJson? fields "syncedParentPolicy"
    maxAscent := ← Json.orElse? 10 Json.nat? fields "maxAscentAttempts" }

/-- A configuration as a document. -/
def toJson (c : Configuration) : Json :=
  .objectOf [("locale", some (.string c.locale)), ("editMode", some (.string c.editMode.word)),
    ("principal", some (.string c.principal)), ("indentHtml", some (.bool c.indentHtml)),
    ("fixtures", c.fixtures.map .string), ("syncedParentPolicy", some c.syncedParents.toJson),
    ("maxAscentAttempts", some (.nat c.maxAscent))]

/-- How pages are written. -/
def viewSettings (c : Configuration) : View.Settings where
  indentHtml := c.indentHtml

/-- How merges are carried out. -/
def mergeSettings (c : Configuration) : Merge.Settings where
  maxAscent := c.maxAscent

/-- The path of the file with fixtures, for a configuration in the given directory. -/
def fixturesPath? (c : Configuration) (directory : String) : Option String :=
  c.fixtures.map (joinPath directory)

end Configuration

end ContentTree.Command
