import ContentTree.Html.Escape
import ContentTree.Tree.Basic

/-!
# Deployment directives

What an export tells about a node beyond its markup: who may see it, where it links to, whom it
belongs to, and for texts their type and conditions. Who may see a node is told relative to its
page: a node with the audience of its page says nothing, and neither does a node for everyone on a
page for users.

## Main definitions

* `Audience`: who may see a node.
* `Directive`, `Directive.text`: directives, and directives as they are written.
* `Audience.relative?`: what a node says about its audience.
* `Tree.directives`: the directives of a node in their order.
-/

namespace ContentTree

/-- Who may see a node. -/
inductive Audience
  | everyone
  /-- Anonymous visitors only. -/
  | publicOnly
  /-- Users only. -/
  | usersOnly
  | nobody
deriving DecidableEq

namespace Audience

/-- The audience of a node that is visible to the public, to users, to both or to none. -/
def ofFlags (toPublic toUsers : Bool) : Audience :=
  match toPublic, toUsers with
  | true, true => everyone
  | true, false => publicOnly
  | false, true => usersOnly
  | false, false => nobody

/-- The word for an audience. -/
def word : Audience → String
  | everyone => "public"
  | publicOnly => "public-only"
  | usersOnly => "protected"
  | nobody => "private"

/-- What a node says about its audience on a page with another. -/
def relative? (page own : Audience) : Option Audience :=
  if own = page ∨ (page = usersOnly ∧ own = everyone) then none else some own

end Audience

/-- Something an export tells about a node. -/
inductive Directive
  | audience (audience : Audience)
  | owner (name : String)
  /-- What a principal may do, one letter for each permission. -/
  | grant (principal letters : String)
  | link (path : String)
  | pageLink (path : String)
  /-- The type of a text. -/
  | content (contentType : String)
  /-- The condition under which a text is shown. -/
  | showWhen (condition : String)
  /-- The condition under which a text is hidden. -/
  | hideWhen (condition : String)
deriving DecidableEq

namespace Directive

/-- What every directive begins with. -/
def marker : String := "@pagetree:"

/-- The word for a directive. -/
def word : Directive → String
  | audience a => a.word
  | owner _ => "owner"
  | grant .. => "grant"
  | link _ => "link"
  | pageLink _ => "pagelink"
  | content _ => "content"
  | showWhen _ => "show"
  | hideWhen _ => "hide"

/-- What stands in the parentheses of a directive that has them. -/
def argument? : Directive → Option String
  | audience _ => none
  | owner name => some name
  | grant principal letters => some (principal ++ "," ++ letters)
  | link path => some path
  | pageLink path => some path
  | content contentType => some (Html.escapeAttribute contentType)
  | showWhen condition => some (Html.escapeAttribute condition)
  | hideWhen condition => some (Html.escapeAttribute condition)

/-- A directive as it is written. -/
def text (d : Directive) : String :=
  marker ++ d.word ++
    match d.argument? with
    | some argument => "(" ++ argument ++ ")"
    | none => ""

/-- A grant as a directive, unless it grants nothing. -/
def ofGrant? (g : Grant) : Option Directive :=
  match g.permissions.toList with
  | [] => none
  | permissions => some (grant g.principal (String.ofList (permissions.map Permission.letter)))

/-- A link as a directive. -/
def ofLink (l : Link) : Directive :=
  if l.toPage then pageLink l.path else link l.path

/-- The directives for the type and the conditions of a text. -/
def ofText (n : Node) : List Directive :=
  match n.kind with
  | .text _ contentType =>
    (contentType.map content).toList ++
      ((n.properties.showConditions.filter (· ≠ "")).map showWhen).toList ++
      ((n.properties.hideConditions.filter (· ≠ "")).map hideWhen).toList
  | _ => []

/-- The audience of a node by its properties. -/
def audienceOf (p : Properties) : Audience :=
  .ofFlags p.visibleToPublic p.visibleToUsers

/-- The directives of a node on a page with the given audience. -/
def ofNode (page : Audience) (n : Node) : List Directive :=
  ((page.relative? (audienceOf n.properties)).map audience).toList ++
    (n.link.map ofLink).toList ++ (n.properties.owner.map owner).toList ++
    n.properties.grants.filterMap ofGrant? ++ ofText n

end Directive

namespace Tree

/-- The audience of the page a node belongs to; nobody where it belongs to none. -/
def pageAudience (t : Tree) (id : NodeId) : Audience :=
  match (t.document? id).bind t.node? with
  | some page => Directive.audienceOf page.properties
  | none => .nobody

/-- The directives of a node in the order in which they are written. -/
def directives (t : Tree) (id : NodeId) : List Directive :=
  match t.node? id with
  | some n => Directive.ofNode (t.pageAudience id) n
  | none => []

end Tree

end ContentTree
