import ContentTree.Merge.Apply
import ContentTree.Node.Json

/-!
# Merges in JSON documents

Operations are choices by the field `op`, outcomes by the field `status`. The contents inside an
operation may be spelled loosely.

## Main definitions

* `Operation.toJson`, `Operation.ofJson?`: operations.
* `Report.toJson`: reports.
* `Settings.toJson`, `Settings.ofJson?`: settings.
-/

namespace ContentTree.Merge

open Json

private def keyList (keys : List BranchKey) : Json :=
  .array (keys.map .string)

/-- The fields of an operation besides its word. -/
def Operation.fields : Operation → Fields
  | delete id => [("originalNode", nat id)]
  | create place key content =>
    [("parentHash", .string place.parent), ("siblingHashes", keyList place.followers),
      ("nodeHash", .string key), ("spec", content.toJson)]
  | move place key id =>
    [("parentHash", .string place.parent), ("siblingHashes", keyList place.followers),
      ("nodeHash", .string key), ("originalNode", orNull (id.map nat))]
  | update key id content =>
    [("nodeHash", .string key), ("originalNode", nat id), ("spec", content.toJson)]

/-- An operation as a document. -/
def Operation.toJson (op : Operation) : Json :=
  .object (("op", .string op.word) :: op.fields)

/-- The destination among the fields of an operation. -/
def Destination.ofFields? (fields : Fields) : Option Destination := do
  return ⟨← required? string? fields "parentHash",
    ← required? (list? string?) fields "siblingHashes"⟩

/-- The operation a document stands for. -/
def Operation.ofJson? (j : Json) : Option Operation := do
  let (word, fields) ← tagged? .strict [] "op" j
  match word with
  | "delete" =>
    let fields ← record? ["originalNode"] fields
    return delete (← required? nat? fields "originalNode")
  | "create" =>
    let fields ← record? ["parentHash", "siblingHashes", "nodeHash", "spec"] fields
    return create (← Destination.ofFields? fields) (← required? string? fields "nodeHash")
      (← required? (Content.ofJson? .loose) fields "spec")
  | "move" =>
    let fields ← fullRecord? ["parentHash", "siblingHashes", "nodeHash", "originalNode"] fields
    return move (← Destination.ofFields? fields) (← required? string? fields "nodeHash")
      (← optional? nat? fields "originalNode")
  | "update" =>
    let fields ← record? ["nodeHash", "originalNode", "spec"] fields
    return update (← required? string? fields "nodeHash")
      (← required? nat? fields "originalNode") (← required? (Content.ofJson? .loose) fields "spec")
  | _ => none

/-- The word for a reason to skip. -/
def Skip.word : Skip → String
  | noPosition => "noInsertPosition"
  | syncedParent => "syncedParent"
  | inPlace => "alreadyInPlace"
  | unknownNode => "unknownNode"

/-- An outcome as a document. -/
def Outcome.toJson : Outcome → Json
  | applied => .object [("status", .string "applied")]
  | skipped reason => .object [("status", .string "skipped"), ("reason", .string reason.word)]

/-- A report as a document. -/
def Report.toJson (r : Report) : Json :=
  .object [("entries", .array (r.entries.map fun entry =>
    .object [("operation", entry.1.toJson), ("outcome", entry.2.toJson)]))]

/-- Settings as a document. -/
def Settings.toJson (s : Settings) : Json :=
  .object [("maxAscentAttempts", nat s.maxAscent)]

/-- The settings a document stands for. -/
def Settings.ofJson? (j : Json) : Option Settings := do
  let fields ← record? ["maxAscentAttempts"] j
  return ⟨← orElse? 10 nat? fields "maxAscentAttempts"⟩

end ContentTree.Merge
