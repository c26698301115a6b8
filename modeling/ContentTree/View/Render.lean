import ContentTree.Directive.Comment
import ContentTree.Html.Writer
import ContentTree.Tree.Branch
import ContentTree.View.Filter

/-!
# Rendering

A branch is walked in document order and written as HTML. Nodes that the principal cannot read are
left out with everything below them, and so are nodes that filters hide. A node with a data key is
written once for every element of its list, with the element bound under the key; afterwards the
bindings are what they were before.

A walk can be cancelled. It then finishes the nodes it has begun, but enters no further ones.

## Main definitions

* `Services`: what a walk relies on.
* `Walk`: the state of a walk.
* `node`, `content`, `forEach`: a branch, the content of its root, and lists.
* `render`: the page written for a node of a tree.
-/

namespace ContentTree.View

/-- What a walk relies on. Evaluations and sources have effects on a state. Whether the walk has
been cancelled is asked at each node anew, and the answer may be another one even where nothing has
been evaluated since it was last asked. -/
structure Services (σ : Type) where
  access : Access
  evaluate : Evaluator σ
  sources : List (Source σ) := []
  isCancelled : StateM σ Bool := return false

/-- How pages are written. -/
structure Settings where
  /-- Whether each part of a page stands on a line of its own. -/
  indentHtml : Bool := false
  /-- The parameter of requests that names an object. -/
  detailParameter : String := "nodeId"
deriving DecidableEq

/-- The state of a walk. -/
structure Walk (σ : Type) where
  effects : σ
  context : Context
  /-- What has been written, last part first. -/
  lines : List Html.Line := []
  /-- The nodes whose content has been begun, last one first. -/
  started : List NodeId := []
  /-- Whether the walk has noticed that it was cancelled. -/
  aborted : Bool := false

/-- A part of a walk. -/
abbrev Walking (σ α : Type) := StateM (Walk σ) α

variable {σ : Type}

namespace Walking

/-- Runs something with effects in the present context. -/
def perform {α : Type} (act : Context → StateM σ α) : Walking σ α := fun w =>
  let (a, effects) := (act w.context).run w.effects
  (a, { w with effects })

/-- Writes a part of the page. -/
def emit (depth : Nat) (piece : Html.Piece) : Walking σ Unit :=
  modify fun w => { w with lines := ⟨depth, piece⟩ :: w.lines }

/-- Begins the content of a node. -/
def start (id : NodeId) : Walking σ Unit :=
  modify fun w => { w with started := id :: w.started }

/-- Notices that the walk has been cancelled. -/
def abort : Walking σ Unit :=
  modify fun w => { w with aborted := true }

/-- Changes the context. -/
def withContext (f : Context → Context) : Walking σ Unit :=
  modify fun w => { w with context := f w.context }

end Walking

open Walking

/-! ### Elements -/

/-- An attribute of an element as it is written; those with a blank value are not. -/
def attribute? (mode : EditMode) (name value : String) : Option (String × String) :=
  if Text.isBlank value then none
  else some (name, if mode.escapes then Html.escapeAttribute value else value)

/-- The attributes of an element as they are written. Exports leave placeholders in them. -/
def attributes (s : Services σ) (mode : EditMode) (n : Node) :
    List (String × String) → Walking σ (List (String × String))
  | [] => return []
  | (name, raw) :: rest => do
    let value ← if mode.isExport then pure raw
      else Text.trim <$> perform fun c => interpolated s.evaluate c n raw
    return (attribute? mode name value).toList ++ (← attributes s mode n rest)

/-- The properties of a node that exports write as attributes, by name. -/
def metaProperties (p : Properties) : List (String × Option String) :=
  let flag (b : Bool) : Option String := if b then some "true" else none
  [("data-key", Text.filled? p.dataKey), ("rest-query", Text.filled? p.restQuery),
    ("graph-query", Text.filled? p.graphQuery), ("path-query", Text.filled? p.pathQuery),
    ("function-query", Text.filled? p.functionQuery), ("hide-on-index", flag p.hideOnIndex),
    ("hide-on-detail", flag p.hideOnDetail), ("render-details", flag p.renderDetails),
    ("show-for-locales", Text.filled? p.showForLocales),
    ("hide-for-locales", Text.filled? p.hideForLocales),
    ("show-conditions", Text.filled? p.showConditions),
    ("hide-conditions", Text.filled? p.hideConditions)]

/-- The attributes that tell the properties of an element in an export. A deployment also tells the
name and the configuration of a component. -/
def metaAttributes (mode : EditMode) (p : Properties) : List (String × String) :=
  if mode.isExport then
    let deployed (value : Option String) : Option String :=
      if mode = .deployment then value else none
    let properties := [("name", deployed p.name)] ++ metaProperties p ++
      [("shared-component-configuration", deployed (Text.filled? p.componentConfiguration))]
    properties.filterMap fun (name, value) =>
      value.map fun value => ("data-pagetree-meta-" ++ name, Html.escapeAttribute value)
  else []

/-- Writes the directives of a node in a deployment. -/
def emitComment (t : Tree) (mode : EditMode) (depth : Nat) (n : Node) : Walking σ Unit :=
  match if mode = .deployment then Directive.comment? (t.directives n.id) else none with
  | some comment => emit depth (.comment comment)
  | none => return ()

/-- The text of a node as it is written. Exports leave it as it is. -/
def textOf (s : Services σ) (mode : EditMode) (n : Node) (content : String) : Walking σ String :=
  if mode.isExport then return content
  else Html.escapeText <$> perform fun c => interpolated s.evaluate c n content

/-! ### Nodes -/

/-- Writes the content of a node, if no filter hides it. What is below it is written by `below`,
which is given the depth. -/
def content (s : Services σ) (t : Tree) (mode : EditMode) (n : Node) (depth : Nat)
    (below : Nat → Walking σ Unit) : Walking σ Unit := do
  if !showsForLocale (← get).context n then return
  if !(← perform fun c => meetsConditions s.evaluate c n) then return
  start n.id
  match n.kind with
  | .page .. =>
    emit depth .doctype
    below depth
  | .element tag attrs =>
    emitComment t mode depth n
    let written ← attributes s mode n attrs.toList
    emit depth (.startTag tag (written ++ metaAttributes mode n.properties))
    if !Html.isVoid tag then
      below (depth + 1)
      emit depth (.endTag tag)
  | .text text _ =>
    emitComment t mode depth n
    emit depth (.text (← textOf s mode n text))
  | .component _ => below depth
  | .fragment => below depth

/-- Writes something once for every element, with the element bound. -/
def eachElement (key : String) (write : Walking σ Unit) : List Value → Walking σ Unit
  | [] => return ()
  | v :: vs => do
    withContext (·.bind key v)
    write
    eachElement key write vs

/-- Writes something once for every element, and then restores the bindings. -/
def forEach (key : String) (elements : List Value) (write : Walking σ Unit) : Walking σ Unit := do
  let before := (← get).context
  eachElement key write elements
  withContext (·.restore before key)

/-- The objects among the elements that a field of the current object stands for. -/
def ownElements (c : Context) (key : String) : List Value :=
  match c.current.bind (·.get? key) with
  | some v => v.items.filter fun
    | .object _ => true
    | _ => false
  | none => []

/-- The elements for which a node with a data key is written: the object that is looked at where the
node asks for it, else those of the first source that has any, else those in the current object. -/
def elements (s : Services σ) (n : Node) (key : String) : Walking σ (List Value) := do
  let c := (← get).context
  match if n.properties.renderDetails then c.details else none with
  | some v => return [v]
  | none =>
    match ← perform fun c => firstElements c n s.sources with
    | [] => return ownElements c key
    | vs => return vs

/-- Writes a node that is to be written at all: for every element of its list, or once where it has
no data key. Exports write every node once. -/
def listed (s : Services σ) (mode : EditMode) (n : Node) (write : Walking σ Unit) :
    Walking σ Unit := do
  match if mode.isExport then none else Text.filled? n.properties.dataKey with
  | some key => forEach key (← elements s n key) write
  | none => write

/-- Enters a node, unless the walk has been cancelled, the principal cannot read the node, or it is
left out. -/
def enter (s : Services σ) (n : Node) (write : Walking σ Unit) : Walking σ Unit := do
  if (← get).aborted then return
  if ← perform fun _ => s.isCancelled then abort
  else
    let c := (← get).context
    if s.access.canRead c.principal n && !isGated c n then write

/-- Writes a branch. -/
def node (s : Services σ) (t : Tree) (mode : EditMode) (depth : Nat) : Branch → Walking σ Unit
  | ⟨n, cs⟩ =>
    enter s n <| listed s mode n <| content s t mode n depth fun depth => nodes depth cs
where
  nodes (depth : Nat) : List Branch → Walking σ Unit
    | [] => return ()
    | c :: cs => do
      node s t mode depth c
      nodes depth cs

/-! ### Pages -/

/-- A written page. -/
structure Output where
  html : String
  /-- Whether the walk was cancelled before its end. -/
  aborted : Bool
  /-- How many nodes were written, once for every element of a list. -/
  nodesRendered : Nat
deriving DecidableEq

/-- Why there is no page. -/
inductive RenderError
  | unknownNode (id : NodeId)
  /-- The tree cannot be read since a writer failed while it held it. -/
  | lockPoisoned
deriving DecidableEq

/-- The wording of an error. -/
def RenderError.message : RenderError → String
  | unknownNode id => "Unknown node: " ++ id.text
  | lockPoisoned => "Tree lock poisoned"

/-- The page of a finished walk. -/
def Walk.output (settings : Settings) (w : Walk σ) : Output where
  html := Html.write settings.indentHtml w.lines.reverse
  aborted := w.aborted
  nodesRendered := w.started.length

/-- The walk of a branch, from the given context and state. -/
def walk (s : Services σ) (t : Tree) (b : Branch) (c : Context) (effects : σ) : Walk σ :=
  ((node s t c.mode 0 b).run { effects, context := c }).2

/-- Writes the page for a node of a tree. The context and the state afterwards come with it. -/
def render (s : Services σ) (settings : Settings) (t : Tree) (root : NodeId) (c : Context)
    (effects : σ) : Except RenderError (Output × Context × σ) :=
  match t.branch? root with
  | some b =>
    let w := walk s t b c effects
    .ok (w.output settings, w.context, w.effects)
  | none => .error (.unknownNode root)

/-- A tree that several parties read and write. -/
inductive Shared
  | available (t : Tree)
  /-- A writer failed while it held the tree. -/
  | poisoned

/-- Writes the page for a node of a shared tree. -/
def renderShared (s : Services σ) (settings : Settings) (t : Shared) (root : NodeId) (c : Context)
    (effects : σ) : Except RenderError (Output × Context × σ) :=
  match t with
  | .available t => render s settings t root c effects
  | .poisoned => .error .lockPoisoned

end ContentTree.View
