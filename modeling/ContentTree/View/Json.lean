import ContentTree.Json.Record
import ContentTree.View.Render

/-!
# Views in JSON documents

## Main definitions

* `Settings.toJson`, `Settings.ofJson?`: settings.
* `Output.toJson`: written pages.
-/

namespace ContentTree.View

/-- Settings as a document. -/
def Settings.toJson (s : Settings) : Json :=
  .object [("indentHtml", .bool s.indentHtml), ("detailParameter", .string s.detailParameter)]

/-- The settings a document stands for. -/
def Settings.ofJson? (j : Json) : Option Settings := do
  let fields ← Json.record? ["indentHtml", "detailParameter"] j
  return {
    indentHtml := ← Json.orElse? false Json.bool? fields "indentHtml"
    detailParameter := ← Json.orElse? "nodeId" Json.string? fields "detailParameter" }

/-- A written page as a document. -/
def Output.toJson (o : Output) : Json :=
  .object [("html", .string o.html), ("aborted", .bool o.aborted),
    ("nodesRendered", .nat o.nodesRendered)]

end ContentTree.View
