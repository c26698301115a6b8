import ContentTree.View.Render

/-!
# Passes

The state behind a view that evaluates expressions with the built-in evaluator: the cache, the clock
by which values in it expire, the number of evaluations, and whether the view has been cancelled. A
pass can be told to be cancelled at one of its evaluations.

## Main definitions

* `Pass`: such states.
* `Pass.evaluate`: the built-in evaluator.
* `Pass.services`: the services for a walk.
-/

namespace ContentTree.View

/-- The state behind a view. -/
structure Pass where
  cache : Cache := {}
  clock : Clock := {}
  evaluations : Nat := 0
  cancelled : Bool := false
  /-- The number of the evaluation at which the pass is cancelled. -/
  cancelAt : Option Nat := none

namespace Pass

/-- Counts an evaluation, and cancels the pass if it is time. -/
def count (p : Pass) : Pass :=
  let evaluations := p.evaluations + 1
  { p with evaluations, cancelled := p.cancelled || p.cancelAt = some evaluations }

/-- Evaluates an expression at a node. -/
def evaluate : Evaluator Pass := fun c n source p =>
  let p := p.count
  let evaluation := (ContentTree.evaluate (c.scope n) source).run
  let ((result, cache), clock) := (evaluation.run p.cache).run p.clock
  (result, { p with cache, clock })

/-- The services with the built-in evaluator. -/
def services (access : Access) (sources : List (Source Pass)) : Services Pass where
  access
  evaluate
  sources
  isCancelled := return (← get).cancelled

end Pass

end ContentTree.View
