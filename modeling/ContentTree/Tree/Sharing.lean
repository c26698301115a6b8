import ContentTree.Node.Basic
import Std.Data.ExtTreeSet

/-!
# Shared components and their mirrors

A node may mirror one shared component, and a component may be mirrored by many nodes. The relation
is kept from both sides. A component without mirrors has no entry.

## Main definitions

* `Sharing`: the relation.
* `Sharing.link`, `Sharing.unlink`: a mirror starts or ceases to mirror a component.
* `Sharing.isSynced`: whether a node takes part in the relation on either side.
-/

namespace ContentTree

/-- Which node mirrors which shared component, from both sides. -/
structure Sharing where
  /-- The component of each mirror. -/
  components : Std.ExtTreeMap NodeId NodeId := ∅
  /-- The mirrors of each component. -/
  mirrors : Std.ExtTreeMap NodeId (Std.ExtTreeSet NodeId) := ∅

namespace Sharing

/-- The component a node mirrors. -/
def componentOf (s : Sharing) (mirror : NodeId) : Option NodeId :=
  s.components[mirror]?

/-- The set of the mirrors of a component. -/
def mirrorSet (s : Sharing) (component : NodeId) : Std.ExtTreeSet NodeId :=
  s.mirrors.getD component ∅

/-- The mirrors of a component in ascending order. -/
def mirrorsOf (s : Sharing) (component : NodeId) : List NodeId :=
  (s.mirrorSet component).toList

/-- Whether any node mirrors the given one. -/
def hasMirrors (s : Sharing) (component : NodeId) : Bool :=
  !(s.mirrorSet component).isEmpty

/-- Whether a node is a mirror or a mirrored component. -/
def isSynced (s : Sharing) (id : NodeId) : Bool :=
  (s.componentOf id).isSome || s.hasMirrors id

/-- A node ceases to mirror its component, if it has one. -/
def unlink (s : Sharing) (mirror : NodeId) : Sharing :=
  match s.componentOf mirror with
  | none => s
  | some component =>
    let rest := (s.mirrorSet component).erase mirror
    { components := s.components.erase mirror
      mirrors :=
        if rest.isEmpty then s.mirrors.erase component else s.mirrors.insert component rest }

/-- A node mirrors `component` from now on, instead of any component it mirrored before. -/
def link (s : Sharing) (mirror component : NodeId) : Sharing :=
  let s := s.unlink mirror
  { components := s.components.insert mirror component
    mirrors := s.mirrors.insert component ((s.mirrorSet component).insert mirror) }

end Sharing

end ContentTree
