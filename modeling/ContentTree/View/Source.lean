import ContentTree.Expression.Placeholder
import ContentTree.Json.Record
import ContentTree.View.Context

/-!
# Data sources

A node with a data key is written once for every element of a list. The list comes from the first of
several sources that has any elements for the node. A source that fails counts as having none.

Expressions are evaluated by whatever evaluator the view uses; its effects are kept in a state.

## Main definitions

* `Evaluator`, `Source`: evaluators and sources with effects on a state.
* `Backend`, `Fixtures`: what answers queries, and prepared answers.
* `Source.idParameter`, `rest`, `function`, `graph`, `path`: the sources.
* `firstElements`: the elements from the first source that has any.
-/

namespace ContentTree.View

/-- Why a source has no answer. -/
inductive SourceError
  | query (reason : String)
  | expression (cause : ExpressionError)
deriving DecidableEq

/-- Evaluates expressions at a node. -/
abbrev Evaluator (σ : Type) :=
  Context → Node → String → StateM σ (Except ExpressionError Value)

/-- Finds elements for a node. -/
abbrev Source (σ : Type) :=
  Context → Node → StateM σ (Except SourceError (List Value))

/-- The languages of queries. -/
inductive QueryKind
  | rest
  | graph
  | path
deriving DecidableEq

/-- Answers queries and finds objects by their identifier. -/
structure Backend where
  query : QueryKind → String → Except SourceError (List Value)
  entity : String → Except SourceError (Option Value)

/-- Prepared objects by identifier, and prepared answers by the text of the query. -/
structure Fixtures where
  entities : Std.ExtTreeMap String Value := ∅
  queries : Std.ExtTreeMap String (List Value) := ∅

namespace Fixtures

/-- The backend that gives the prepared answers, in whatever language a query is. -/
def backend (f : Fixtures) : Backend where
  query _ text := .ok (f.queries.getD text [])
  entity id := .ok f.entities[id]?

/-- The fixtures a document stands for. -/
def ofJson? (j : Json) : Option Fixtures := do
  let fields ← Json.record? ["entities", "queries"] j
  return {
    entities := ← Json.orElse? ∅ (Json.map? Value.ofJson?) fields "entities"
    queries := ← Json.orElse? ∅ (Json.map? (Json.list? Value.ofJson?)) fields "queries" }

end Fixtures

variable {σ : Type}

/-- A text of a node with its placeholders replaced. -/
def interpolated (evaluate : Evaluator σ) (c : Context) (n : Node) (text : String) :
    StateM σ String :=
  Placeholder.interpolate (fun source => Except.toOption <$> evaluate c n source) text

namespace Source

/-- The object whose identifier is a parameter of the request. -/
def idParameter (b : Backend) (parameter : String) : Source σ := fun c _ =>
  return match c.parameters[parameter]? with
    | some id => (b.entity id).map Option.toList
    | none => .ok []

/-- The answer to a query of the node, after its placeholders have been replaced. -/
def ofQuery (b : Backend) (evaluate : Evaluator σ) (kind : QueryKind)
    (query : Properties → Option String) : Source σ := fun c n => do
  match Text.filled? (query n.properties) with
  | some text => return b.query kind (← interpolated evaluate c n text)
  | none => return .ok []

/-- The answer to the REST query of the node. -/
def rest (b : Backend) (evaluate : Evaluator σ) : Source σ :=
  ofQuery b evaluate .rest (·.restQuery)

/-- The answer to the graph query of the node. -/
def graph (b : Backend) (evaluate : Evaluator σ) : Source σ :=
  ofQuery b evaluate .graph (·.graphQuery)

/-- The answer to the path query of the node. -/
def path (b : Backend) (evaluate : Evaluator σ) : Source σ :=
  ofQuery b evaluate .path (·.pathQuery)

/-- The elements of the value of an expression of the node. -/
def function (evaluate : Evaluator σ) : Source σ := fun c n => do
  match Text.filled? n.properties.functionQuery with
  | some source =>
    match ← evaluate c n source with
    | .ok v => return .ok v.items
    | .error e => return .error (.expression e)
  | none => return .ok []

/-- The sources in their usual order. -/
def standard (b : Backend) (evaluate : Evaluator σ) (parameter : String) : List (Source σ) :=
  [idParameter b parameter, rest b evaluate, function evaluate, graph b evaluate, path b evaluate]

end Source

/-- The elements from the first source that has any. -/
def firstElements (c : Context) (n : Node) : List (Source σ) → StateM σ (List Value)
  | [] => return []
  | source :: sources => do
    match ← source c n with
    | .ok (v :: vs) => return v :: vs
    | _ => firstElements c n sources

end ContentTree.View
