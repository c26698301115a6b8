import ContentTree.View.Render

/-!
# Parts of a walk

A walk asks its services and looks at its context, and it writes. What it asks and looks at neither
writes nor begins anything.

## Main definitions

* `Quiet`: a part of a walk that writes nothing, begins nothing and notices nothing.
* `body`: what is written after the content of a node has been begun.

## Main results

* `Quiet.attributes`, `Quiet.textOf`, `Quiet.elements`: what is asked on the way.
* `content_eq_body`: the content of a node is its body, unless filters hide it.
-/

namespace ContentTree.View

variable {σ α β : Type} {s : Services σ} {t : Tree} {mode : EditMode} {n : Node} {depth : Nat}
  {key : String}

/-- A part of a walk writes nothing, begins no content, and does not notice a cancellation. -/
structure Quiet (x : Walking σ α) : Prop where
  lines : ∀ w, (x.run w).2.lines = w.lines
  started : ∀ w, (x.run w).2.started = w.started
  aborted : ∀ w, (x.run w).2.aborted = w.aborted

namespace Quiet

theorem pure (a : α) : Quiet (Pure.pure a : Walking σ α) :=
  ⟨fun _ => rfl, fun _ => rfl, fun _ => rfl⟩

theorem bind {x : Walking σ α} {f : α → Walking σ β} (hx : Quiet x) (hf : ∀ a, Quiet (f a)) :
    Quiet (x >>= f) where
  lines w := ((hf _).lines _).trans (hx.lines w)
  started w := ((hf _).started _).trans (hx.started w)
  aborted w := ((hf _).aborted _).trans (hx.aborted w)

theorem map {x : Walking σ α} (hx : Quiet x) (f : α → β) : Quiet (f <$> x) :=
  ⟨hx.lines, hx.started, hx.aborted⟩

theorem get : Quiet (MonadState.get : Walking σ (Walk σ)) :=
  ⟨fun _ => rfl, fun _ => rfl, fun _ => rfl⟩

theorem perform (act : Context → StateM σ α) : Quiet (Walking.perform act) :=
  ⟨fun _ => rfl, fun _ => rfl, fun _ => rfl⟩

theorem withContext (f : Context → Context) : Quiet (Walking.withContext f : Walking σ Unit) :=
  ⟨fun _ => rfl, fun _ => rfl, fun _ => rfl⟩

theorem attributes (attrs : List (String × String)) : Quiet (attributes s mode n attrs) := by
  induction attrs with
  | nil => exact pure _
  | cons a attrs ih =>
    unfold View.attributes
    dsimp only
    split
    · exact (pure _).bind fun _ => ih.map _
    · exact ((perform _).map _).bind fun _ => ih.map _

theorem textOf (content : String) : Quiet (textOf s mode n content) := by
  unfold View.textOf
  split
  · exact pure _
  · exact (perform _).map _

theorem elements : Quiet (elements s n key) := by
  refine get.bind fun w => ?_
  dsimp only
  split
  · exact pure _
  · refine (perform _).bind fun vs => ?_
    cases vs <;> exact pure _

end Quiet

/-- What is written for a node after its content has been begun. -/
def body (s : Services σ) (t : Tree) (mode : EditMode) (n : Node) (depth : Nat)
    (below : Nat → Walking σ Unit) : Walking σ Unit :=
  match n.kind with
  | .page .. => do
    Walking.emit depth .doctype
    below depth
  | .element tag attrs => do
    emitComment t mode depth n
    let written ← attributes s mode n attrs.toList
    Walking.emit depth (.startTag tag (written ++ metaAttributes mode n.properties))
    if !Html.isVoid tag then
      below (depth + 1)
      Walking.emit depth (.endTag tag)
  | .text text _ => do
    emitComment t mode depth n
    Walking.emit depth (.text (← textOf s mode n text))
  | .component _ => below depth
  | .fragment => below depth

theorem content_eq_body (s : Services σ) (t : Tree) (mode : EditMode) (n : Node) (depth : Nat)
    (below : Nat → Walking σ Unit) :
    content s t mode n depth below = (do
      if !showsForLocale (← get).context n then return
      if !(← Walking.perform fun c => meetsConditions s.evaluate c n) then return
      Walking.start n.id
      body s t mode n depth below) := rfl

end ContentTree.View
