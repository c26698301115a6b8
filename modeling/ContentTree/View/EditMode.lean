import ContentTree.Access
import ContentTree.Text.Blank

/-!
# Edit modes

How a page is written: for visitors, or for one of several exports that show the full structure
without filters.

## Main definitions

* `EditMode`: the modes.
* `EditMode.resolve`: the mode that a request leads to.
-/

namespace ContentTree

/-- How a page is written. -/
inductive EditMode
  /-- For visitors. -/
  | normal
  | raw
  | widget
  | deployment
  /-- For visitors who look at one object. -/
  | detail
deriving DecidableEq

namespace EditMode

/-- All modes. -/
def all : List EditMode := [normal, raw, widget, deployment, detail]

/-- The word for a mode. -/
def word : EditMode → String
  | normal => "default"
  | raw => "raw"
  | widget => "widget"
  | deployment => "deployment"
  | detail => "detail"

/-- The mode of a word in any case. -/
def ofText? (s : String) : Option EditMode :=
  all.find? (·.word = Text.lower s)

/-- The complaint about a word that is no mode. -/
def unknownMessage (s : String) : String :=
  "unknown edit mode '" ++ Text.lower s ++ "'"

/-- Whether the full structure is written, without filters. -/
def isExport : EditMode → Bool
  | raw => true
  | widget => true
  | deployment => true
  | _ => false

/-- Whether the values of attributes are escaped. -/
def escapes : EditMode → Bool
  | raw => false
  | widget => false
  | _ => true

/-- The mode that a request leads to. Exports are not for anonymous visitors, and whether visitors
look at one object depends on whether there is one. -/
def resolve (requested : EditMode) (p : Principal) (hasDetails : Bool) : EditMode :=
  match if p.isAnonymous && requested.isExport then normal else requested with
  | normal => if hasDetails then detail else normal
  | detail => if hasDetails then detail else normal
  | mode => mode

end EditMode

end ContentTree
