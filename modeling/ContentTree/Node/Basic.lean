import Std.Data.ExtTreeMap

/-!
# Nodes

A node is a record in the table of a tree. Its content (kind, properties, link) says what the node
is; its structural part (parent, children, position, document, component) says where it stands.
Relations to other nodes are always identifiers, never the nodes themselves.

## Main definitions

* `Kind`: pages, elements, texts, components and fragments.
* `Permission`, `Grant`: what a named principal may do with a node.
* `Properties`: visibility, ownership, data binding and rendering flags.
* `Content`: everything that a copy of a node carries over.
* `Node`: content and place.
-/

namespace ContentTree

/-- The identifier of a node. It never changes and is never used again for another node. -/
abbrev NodeId := Nat

/-- An identifier as it appears in messages. -/
def NodeId.text (id : NodeId) : String := "#" ++ Nat.repr id

/-- Attributes of an element, by name. -/
abbrev Attributes := Std.ExtTreeMap String String

/-- The kinds of nodes. -/
inductive Kind
  /-- The root of a document. A shadow page owns shared components and is never shown. -/
  | page (name : String) (version : Nat) (shadow : Bool)
  /-- An element of markup. -/
  | element (tag : String) (attributes : Attributes)
  /-- A piece of text. -/
  | text (content : String) (contentType : Option String)
  /-- A reusable group of nodes. -/
  | component (name : String)
  /-- A list of nodes that is spread out where it is inserted. -/
  | fragment
deriving DecidableEq

namespace Kind

/-- The word for a kind. -/
def word : Kind → String
  | page .. => "page"
  | element .. => "element"
  | text .. => "text"
  | component .. => "component"
  | fragment => "fragment"

/-- Whether a node is the root of a document. -/
def isPage : Kind → Bool
  | page .. => true
  | _ => false

/-- Whether a node is a piece of text. -/
def isText : Kind → Bool
  | text .. => true
  | _ => false

/-- Whether a node is a component. -/
def isComponent : Kind → Bool
  | component .. => true
  | _ => false

/-- Whether a node is a fragment. -/
def isFragment : Kind → Bool
  | fragment => true
  | _ => false

/-- Every node may hold children, except a text. -/
def acceptsChildren (k : Kind) : Bool :=
  !k.isText

/-- Whether two nodes are of the same kind, whatever they contain. -/
def same : Kind → Kind → Bool
  | page .., page .. => true
  | element .., element .. => true
  | text .., text .. => true
  | component .., component .. => true
  | fragment, fragment => true
  | _, _ => false

/-- The tag of an element. -/
def tag? : Kind → Option String
  | element tag _ => some tag
  | _ => none

/-- The content of a text. -/
def textContent? : Kind → Option String
  | text content _ => some content
  | _ => none

/-- A kind whose version counter, if it has one, is the given one. -/
def withVersion (version : Nat) : Kind → Kind
  | page name _ shadow => page name version shadow
  | k => k

/-- The version counter of a page. -/
def version? : Kind → Option Nat
  | page _ version _ => some version
  | _ => none

end Kind

/-- The kinds of access to a node. -/
inductive Permission
  | read
  | write
  | delete
  | accessControl
deriving DecidableEq

namespace Permission

/-- All permissions in their order. -/
def all : List Permission := [read, write, delete, accessControl]

/-- The word for a permission. -/
def word : Permission → String
  | read => "read"
  | write => "write"
  | delete => "delete"
  | accessControl => "accessControl"

/-- The letter for a permission. -/
def letter : Permission → Char
  | read => 'r'
  | write => 'w'
  | delete => 'd'
  | accessControl => 'a'

/-- The permission of a letter. -/
def ofLetter? (c : Char) : Option Permission :=
  all.find? (·.letter = c)

end Permission

/-- A set of permissions. -/
structure PermissionSet where
  read : Bool := false
  write : Bool := false
  delete : Bool := false
  accessControl : Bool := false
deriving DecidableEq

namespace PermissionSet

/-- Whether a permission is in the set. -/
def contains (s : PermissionSet) : Permission → Bool
  | .read => s.read
  | .write => s.write
  | .delete => s.delete
  | .accessControl => s.accessControl

/-- The set of the given permissions. -/
def ofList (ps : List Permission) : PermissionSet :=
  ⟨ps.contains .read, ps.contains .write, ps.contains .delete, ps.contains .accessControl⟩

/-- The permissions of the set in their order. -/
def toList (s : PermissionSet) : List Permission :=
  Permission.all.filter s.contains

end PermissionSet

/-- What a named principal may do with a node. -/
structure Grant where
  principal : String
  permissions : PermissionSet
deriving DecidableEq

/-- A link from a node to a page or to another path. -/
structure Link where
  path : String
  toPage : Bool := false
deriving DecidableEq

/-- The properties of a node apart from its kind and its place. -/
structure Properties where
  name : Option String := none
  visibleToPublic : Bool := false
  visibleToUsers : Bool := false
  owner : Option String := none
  grants : List Grant := []
  dataKey : Option String := none
  restQuery : Option String := none
  functionQuery : Option String := none
  graphQuery : Option String := none
  pathQuery : Option String := none
  showForLocales : Option String := none
  hideForLocales : Option String := none
  showConditions : Option String := none
  hideConditions : Option String := none
  renderDetails : Bool := false
  hideOnIndex : Bool := false
  hideOnDetail : Bool := false
  componentConfiguration : Option String := none
  dataHash : Option String := none
deriving DecidableEq

/-- The first grant to a principal. -/
def Properties.grant? (p : Properties) (principal : String) : Option Grant :=
  p.grants.find? (·.principal = principal)

/-- What a node is, without its place. -/
structure Content where
  kind : Kind
  properties : Properties := {}
  link : Option Link := none
deriving DecidableEq

/-- The part of a content that counts when contents are compared: page versions, stored hashes,
owner and grants are left out. -/
def Content.comparable (c : Content) : Content :=
  { c with
    kind := c.kind.withVersion 0
    properties := { c.properties with dataHash := none, owner := none, grants := [] } }

/-- A node: its content and its place in a tree. -/
structure Node extends Content where
  id : NodeId
  parent : Option NodeId := none
  children : List NodeId := []
  /-- The index among the children of the parent, zero without a parent. -/
  position : Nat := 0
  /-- The page the node belongs to. A page belongs to itself and records nothing here. -/
  document : Option NodeId := none
  /-- The shared component that the node mirrors. -/
  component : Option NodeId := none
deriving DecidableEq

namespace Node

/-- A node without a place. -/
def ofContent (id : NodeId) (content : Content) : Node :=
  { content with id }

/-- The page a node belongs to; a page belongs to itself. -/
def owningPage (n : Node) : Option NodeId :=
  if n.kind.isPage then some n.id else n.document

/-- The name shown in paths: the name property, else the name of a page or component, the tag of an
element, or the word for the kind. -/
def contextName (n : Node) : String :=
  match n.properties.name, n.kind with
  | some name, _ => name
  | none, .page name .. => name
  | none, .component name => name
  | none, .element tag _ => tag
  | none, kind => kind.word

/-- The stored hash of a node, else its identifier. -/
def hashOrId (n : Node) : String :=
  n.properties.dataHash.getD (Nat.repr n.id)

end Node

end ContentTree
