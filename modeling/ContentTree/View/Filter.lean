import ContentTree.View.Source

/-!
# Filters

Which nodes are written: by the kind of page that is looked at, by language, and by conditions.
Exports pass the last two filters. A condition that cannot be evaluated hides nothing.

## Main definitions

* `isGated`: nodes left out of detail pages or of all others.
* `showsForLocale`, `meetsConditions`: the filters by language and by conditions.
-/

namespace ContentTree.View

/-- Whether a node is left out because one object is looked at, or because none is. -/
def isGated (c : Context) (n : Node) : Bool :=
  if c.details.isSome then n.properties.hideOnDetail else n.properties.hideOnIndex

/-- Whether a node is written for a language. Lists of languages are searched for the name of the
language. -/
def showsForLocale (c : Context) (n : Node) : Bool :=
  c.mode.isExport ||
    !(Text.filled? n.properties.hideForLocales).any (Text.contains · c.locale) &&
      (Text.filled? n.properties.showForLocales).all (Text.contains · c.locale)

/-- Whether a condition has the given truth value. -/
def holds {σ : Type} (evaluate : Evaluator σ) (c : Context) (n : Node) (truth : Bool) :
    Option String → StateM σ Bool
  | none => return false
  | some condition => do
    match ← evaluate c n condition with
    | .ok (.boolean b) => return b = truth
    | _ => return false

/-- Whether the conditions of a node allow to write it. When the first hides it, the second is not
evaluated. -/
def meetsConditions {σ : Type} (evaluate : Evaluator σ) (c : Context) (n : Node) :
    StateM σ Bool := do
  if c.mode.isExport then return true
  if ← holds evaluate c n true (Text.filled? n.properties.hideConditions) then return false
  return !(← holds evaluate c n false (Text.filled? n.properties.showConditions))

end ContentTree.View
