import ContentTree.Node.Json
import ContentTree.Json.Printer
import ContentTree.Json.Reader
import ContentTree.Snapshot.Basic

/-!
# Snapshots in JSON documents

The fields of the kind stand among those of the snapshot itself, and all fields that the snapshot
does not use for itself belong to the kind, which may be spelled loosely. Identifiers, default
properties, missing links and empty lists of children are not written.

## Main definitions

* `Snapshot.toJson`, `Snapshot.ofJson?`: snapshots as documents.
* `Snapshot.pretty`, `Snapshot.read?`: snapshots as texts.
-/

namespace ContentTree.Snapshot

open Json

/-- A snapshot as a document. -/
def toJson : Snapshot → Json
  | mk id content component children =>
    objectOf <|
      [("id", id.map nat)] ++ content.kind.fields ++
      [("properties",
          if content.properties = {} then none else some content.properties.toJson),
        ("link", content.link.map Link.toJson),
        ("sharedComponent", component.map nat),
        ("children", if children.isEmpty then none else some (.array (listToJson children)))]
where
  listToJson : List Snapshot → List Json
    | [] => []
    | s :: ss => s.toJson :: listToJson ss

/-- The fields of a snapshot that are not fields of its kind. -/
def ownNames : List String :=
  ["id", "properties", "link", "sharedComponent", "children"]

/-- A snapshot from its fields and the snapshots of its children. -/
def assemble? (fields : Fields) (children : List Snapshot) : Option Snapshot := do
  let own := fields.filter fun field => ownNames.contains field.1
  if !distinctNames own then none
  let kind ← Kind.ofJson? .loose (.object (fields.filter fun field => !ownNames.contains field.1))
  return mk (← optional? nat? own "id")
    { kind
      properties := ← orElse? {} (Properties.ofJson? .strict) own "properties"
      link := ← optional? Link.ofJson? own "link" }
    (← optional? nat? own "sharedComponent") children

/-- The snapshot a document stands for. -/
def ofJson? : Json → Option Snapshot
  | .object fields => (childrenOf? fields).bind (assemble? fields)
  | _ => none
where
  childrenOf? : List (String × Json) → Option (List Snapshot)
    | [] => some []
    | (key, j) :: fields =>
      let first := match j with
        | .array items => listOf? items
        | _ => none
      if key = "children" then first else childrenOf? fields
  listOf? : List Json → Option (List Snapshot)
    | [] => some []
    | j :: js =>
      match ofJson? j with
      | none => none
      | some s => (listOf? js).map (s :: ·)

/-- The text of a snapshot, with each item on a line of its own. -/
def pretty (s : Snapshot) : String :=
  s.toJson.pretty

/-- The snapshot a text stands for. -/
def read? (text : String) : Option Snapshot :=
  (Json.read? text).bind ofJson?

end ContentTree.Snapshot
