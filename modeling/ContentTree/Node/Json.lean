import ContentTree.Json.Record
import ContentTree.Node.Basic

/-!
# Nodes in JSON documents

Kinds are choices by the field `type`. Absent texts, empty attribute maps and empty lists of grants
are not written; truth values always are, apart from the mark of a shadow page. How freely kinds and
permissions may be spelled depends on where a content stands.

## Main definitions

* `Content.toJson`, `Content.ofJson?`: contents, with `Kind`, `Properties` and `Link` likewise.
* `Node.toJson`: a node with every field, absent ones as `null`.
-/

namespace ContentTree

open Json

/-- The fields of a kind, its tag first. -/
def Kind.fields : Kind → List (String × Option Json)
  | .page name version shadow =>
    [("type", some (.string "page")), ("name", some (.string name)),
      ("version", some (nat version)), ("shadow", if shadow then some (.bool true) else none)]
  | .element tag attributes =>
    [("type", some (.string "element")), ("tag", some (.string tag)),
      ("attributes", if attributes.isEmpty then none else some (ofMap .string attributes))]
  | .text content contentType =>
    [("type", some (.string "text")), ("content", some (.string content)),
      ("contentType", contentType.map .string)]
  | .component name => [("type", some (.string "component")), ("name", some (.string name))]
  | .fragment => [("type", some (.string "fragment"))]

/-- A kind as a document. -/
def Kind.toJson (k : Kind) : Json :=
  objectOf k.fields

/-- The words for the kinds in their order. -/
def Kind.words : List String := ["page", "element", "text", "component", "fragment"]

/-- The kind of the given name with its fields. -/
def Kind.ofTagged? (word : String) (fields : Json) : Option Kind := do
  match word with
  | "page" =>
    let fields ← record? ["name", "version", "shadow"] fields
    return .page (← required? string? fields "name") (← orElse? 0 nat? fields "version")
      (← orElse? false bool? fields "shadow")
  | "element" =>
    let fields ← record? ["tag", "attributes"] fields
    return .element (← required? string? fields "tag")
      (← orElse? ∅ (map? string?) fields "attributes")
  | "text" =>
    let fields ← record? ["content", "contentType"] fields
    return .text (← required? string? fields "content") (← optional? string? fields "contentType")
  | "component" =>
    let fields ← record? ["name"] fields
    return .component (← required? string? fields "name")
  | "fragment" =>
    match fields with
    | .array (_ :: _) => none
    | _ => return .fragment
  | _ => none

/-- The kind a document stands for. -/
def Kind.ofJson? (spelling : Spelling) (j : Json) : Option Kind := do
  let (word, fields) ← tagged? spelling Kind.words "type" j
  Kind.ofTagged? word fields

/-- The permission a document stands for. -/
def Permission.ofJson? (spelling : Spelling) (j : Json) : Option Permission := do
  let word ← word? spelling j
  Permission.all.find? (·.word = word)

/-- A grant as a document. -/
def Grant.toJson (g : Grant) : Json :=
  .object [("principal", .string g.principal),
    ("permissions", .array (g.permissions.toList.map fun p => .string p.word))]

/-- The grant a document stands for. -/
def Grant.ofJson? (spelling : Spelling) (j : Json) : Option Grant := do
  let fields ← record? ["principal", "permissions"] j
  return ⟨← required? string? fields "principal",
    .ofList (← required? (list? (Permission.ofJson? spelling)) fields "permissions")⟩

/-- A link as a document. -/
def Link.toJson (l : Link) : Json :=
  .object [("path", .string l.path), ("toPage", .bool l.toPage)]

/-- The link a document stands for. -/
def Link.ofJson? (j : Json) : Option Link := do
  let fields ← record? ["path", "toPage"] j
  return ⟨← required? string? fields "path", ← orElse? false bool? fields "toPage"⟩

namespace Properties

/-- The names of the properties in their order. -/
def names : List String :=
  ["name", "visibleToPublicUsers", "visibleToAuthenticatedUsers", "owner", "grants", "dataKey",
    "restQuery", "functionQuery", "graphQuery", "pathQuery", "showForLocales", "hideForLocales",
    "showConditions", "hideConditions", "renderDetails", "hideOnIndex", "hideOnDetail",
    "sharedComponentConfiguration", "dataHash"]

/-- The fields of properties. -/
def fields (p : Properties) : List (String × Option Json) :=
  [("name", p.name.map .string),
    ("visibleToPublicUsers", some (.bool p.visibleToPublic)),
    ("visibleToAuthenticatedUsers", some (.bool p.visibleToUsers)),
    ("owner", p.owner.map .string),
    ("grants", if p.grants.isEmpty then none else some (.array (p.grants.map Grant.toJson))),
    ("dataKey", p.dataKey.map .string),
    ("restQuery", p.restQuery.map .string),
    ("functionQuery", p.functionQuery.map .string),
    ("graphQuery", p.graphQuery.map .string),
    ("pathQuery", p.pathQuery.map .string),
    ("showForLocales", p.showForLocales.map .string),
    ("hideForLocales", p.hideForLocales.map .string),
    ("showConditions", p.showConditions.map .string),
    ("hideConditions", p.hideConditions.map .string),
    ("renderDetails", some (.bool p.renderDetails)),
    ("hideOnIndex", some (.bool p.hideOnIndex)),
    ("hideOnDetail", some (.bool p.hideOnDetail)),
    ("sharedComponentConfiguration", p.componentConfiguration.map .string),
    ("dataHash", p.dataHash.map .string)]

/-- Properties as a document. -/
def toJson (p : Properties) : Json :=
  objectOf p.fields

/-- The properties a document stands for. -/
def ofJson? (spelling : Spelling) (j : Json) : Option Properties := do
  let fields ← record? names j
  let text := optional? string? fields
  let flag := orElse? false bool? fields
  return {
    name := ← text "name"
    visibleToPublic := ← flag "visibleToPublicUsers"
    visibleToUsers := ← flag "visibleToAuthenticatedUsers"
    owner := ← text "owner"
    grants := ← orElse? [] (list? (Grant.ofJson? spelling)) fields "grants"
    dataKey := ← text "dataKey"
    restQuery := ← text "restQuery"
    functionQuery := ← text "functionQuery"
    graphQuery := ← text "graphQuery"
    pathQuery := ← text "pathQuery"
    showForLocales := ← text "showForLocales"
    hideForLocales := ← text "hideForLocales"
    showConditions := ← text "showConditions"
    hideConditions := ← text "hideConditions"
    renderDetails := ← flag "renderDetails"
    hideOnIndex := ← flag "hideOnIndex"
    hideOnDetail := ← flag "hideOnDetail"
    componentConfiguration := ← text "sharedComponentConfiguration"
    dataHash := ← text "dataHash" }

end Properties

namespace Content

/-- A content as a document. -/
def toJson (c : Content) : Json :=
  objectOf [("kind", some c.kind.toJson), ("properties", some c.properties.toJson),
    ("link", c.link.map Link.toJson)]

/-- The content a document stands for. -/
def ofJson? (spelling : Spelling) (j : Json) : Option Content := do
  let fields ← record? ["kind", "properties", "link"] j
  return {
    kind := ← required? (Kind.ofJson? spelling) fields "kind"
    properties := ← orElse? {} (Properties.ofJson? spelling) fields "properties"
    link := ← optional? Link.ofJson? fields "link" }

end Content

/-- A node as a document with every field. -/
def Node.toJson (n : Node) : Json :=
  .object [("id", nat n.id), ("kind", n.kind.toJson), ("parent", orNull (n.parent.map nat)),
    ("children", .array (n.children.map nat)), ("position", nat n.position),
    ("ownerDocument", orNull (n.document.map nat)),
    ("sharedComponent", orNull (n.component.map nat)),
    ("link", orNull (n.link.map Link.toJson)), ("properties", n.properties.toJson)]

end ContentTree
