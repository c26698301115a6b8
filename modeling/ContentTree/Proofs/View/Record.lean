import ContentTree.Proofs.Tree.Branch
import ContentTree.Proofs.View.Agree
import Mathlib.Data.List.Forall2

/-!
# Passes with a record

Services can keep a record of what they are asked: of every evaluation, and of every time that a
source is looked up. The record does not disturb a pass, so that what is said of recorded calls is
said of the pass itself.

## Main definitions

* `Call`: what a walk asks of its services.
* `Services.recording`: the same services with a record.
* `Mimics`: a computation does what another does, on a richer state.

## Main results

* `Mimics.standard`: the usual sources do what their evaluators do.
* `Mimics.node`, `map_walk`: a walk does not depend on what else there is in the state.
* `render_recording`: a pass with a record gives the same page.
-/

namespace ContentTree.View

variable {σ τ α β : Type}

/-! ### Computations on a richer state -/

/-- A computation does what another does, on a state from which that of the other can be read. -/
def Mimics (f : τ → σ) (x : StateM τ α) (y : StateM σ α) : Prop :=
  ∀ e, y.run (f e) = ((x.run e).1, f (x.run e).2)

namespace Mimics

variable {f : τ → σ} {c : Context} {n : Node}

theorem pure (f : τ → σ) (a : α) : Mimics f (Pure.pure a) (Pure.pure a) :=
  fun _ => rfl

theorem bind {x : StateM τ α} {y : StateM σ α} {g : α → StateM τ β} {h : α → StateM σ β}
    (hxy : Mimics f x y) (hgh : ∀ a, Mimics f (g a) (h a)) : Mimics f (x >>= g) (y >>= h) := by
  intro e
  change (h (y.run (f e)).1).run (y.run (f e)).2 = _
  rw [hxy e]
  exact hgh _ _

theorem map {x : StateM τ α} {y : StateM σ α} (hxy : Mimics f x y) (g : α → β) :
    Mimics f (g <$> x) (g <$> y) := by
  intro e
  change (g (y.run (f e)).1, (y.run (f e)).2) = _
  rw [hxy e]
  rfl

theorem mapM {g : α → StateM τ β} {h : α → StateM σ β} (hgh : ∀ a, Mimics f (g a) (h a))
    (as : List α) : Mimics f (as.mapM g) (as.mapM h) := by
  induction as with
  | nil => exact pure f _
  | cons a as ih =>
    rw [List.mapM_cons, List.mapM_cons]
    exact (hgh a).bind fun _ => ih.bind fun _ => pure f _

section Evaluate

variable {evaluate : Evaluator τ} {evaluate' : Evaluator σ}
  (he : ∀ c n source, Mimics f (evaluate c n source) (evaluate' c n source))
include he

theorem interpolated (c : Context) (n : Node) (text : String) :
    Mimics f (interpolated evaluate c n text) (interpolated evaluate' c n text) := by
  refine (mapM (fun piece => ?_) _).bind fun _ => pure f _
  cases piece with
  | literal text => exact pure f _
  | expression source =>
    refine ((he c n _).map _).bind fun v => ?_
    cases v <;> exact pure f _

theorem holds (c : Context) (n : Node) (truth : Bool) (condition : Option String) :
    Mimics f (holds evaluate c n truth condition) (holds evaluate' c n truth condition) := by
  cases condition with
  | none => exact pure f _
  | some condition =>
    refine (he c n condition).bind fun v => ?_
    split <;> exact pure f _

theorem meetsConditions (c : Context) (n : Node) :
    Mimics f (meetsConditions evaluate c n) (meetsConditions evaluate' c n) := by
  unfold View.meetsConditions
  split
  · exact pure f _
  · refine (holds he c n _ _).bind fun hidden => ?_
    split
    · exact pure f _
    · exact (holds he c n _ _).bind fun _ => pure f _

end Evaluate

theorem firstElements {sources : List (Source τ)} {sources' : List (Source σ)}
    (hs : List.Forall₂ (fun source source' => ∀ c n, Mimics f (source c n) (source' c n))
      sources sources') :
    Mimics f (firstElements c n sources) (firstElements c n sources') := by
  induction hs with
  | nil => exact pure f _
  | cons hsource _ ih =>
    refine (hsource c n).bind fun r => ?_
    split
    · exact pure f _
    · exact ih

/-- The usual sources do what their evaluators do. -/
theorem standard {evaluate : Evaluator τ} {evaluate' : Evaluator σ}
    (he : ∀ c n source, Mimics f (evaluate c n source) (evaluate' c n source)) (b : Backend)
    (parameter : String) :
    List.Forall₂ (fun source source' => ∀ c n, Mimics f (source c n) (source' c n))
      (Source.standard b evaluate parameter) (Source.standard b evaluate' parameter) := by
  have hquery : ∀ kind query c n, Mimics f (Source.ofQuery b evaluate kind query c n)
      (Source.ofQuery b evaluate' kind query c n) := by
    intro kind query c n
    unfold Source.ofQuery
    split
    · exact (interpolated he c n _).map _
    · exact pure f _
  refine .cons (fun c n => pure f _) <| .cons (hquery _ _) <| .cons (fun c n => ?_) <|
    .cons (hquery _ _) <| .cons (hquery _ _) .nil
  unfold Source.function
  split
  · refine (he c n _).bind fun v => ?_
    cases v <;> exact pure f _
  · exact pure f _

end Mimics

/-- Services do what others do, on a richer state. -/
structure Services.Mimics (r : Services τ) (f : τ → σ) (s : Services σ) : Prop where
  access : r.access = s.access
  evaluate : ∀ c n source, View.Mimics f (r.evaluate c n source) (s.evaluate c n source)
  sources : List.Forall₂ (fun source source' => ∀ c n, View.Mimics f (source c n) (source' c n))
    r.sources s.sources
  isCancelled : View.Mimics f r.isCancelled s.isCancelled

/-! ### Walks on a richer state -/

/-- A walk with the state of the other services. -/
def Walk.map (f : τ → σ) (w : Walk τ) : Walk σ :=
  ⟨f w.effects, w.context, w.lines, w.started, w.aborted⟩

namespace Mimics

variable {f : τ → σ} {n : Node} {mode : EditMode} {t : Tree} {depth : Nat} {key : String}

theorem get_bind {g : Walk τ → Walking τ α} {h : Walk σ → Walking σ α}
    (hgh : ∀ w, Mimics (Walk.map f) (g w) (h (w.map f))) :
    Mimics (Walk.map f) (get >>= g) (get >>= h) :=
  fun w => hgh w w

theorem perform {act : Context → StateM τ α} {act' : Context → StateM σ α}
    (hact : ∀ c, Mimics f (act c) (act' c)) :
    Mimics (Walk.map f) (Walking.perform act) (Walking.perform act') := by
  intro w
  change (((act' w.context).run (f w.effects)).1,
    { w.map f with effects := ((act' w.context).run (f w.effects)).2 }) = _
  rw [hact]
  rfl

theorem emit (depth : Nat) (piece : Html.Piece) :
    Mimics (Walk.map f) (Walking.emit depth piece) (Walking.emit depth piece) :=
  fun _ => rfl

theorem start (id : NodeId) : Mimics (Walk.map f) (Walking.start id) (Walking.start id) :=
  fun _ => rfl

theorem abort : Mimics (Walk.map f) Walking.abort Walking.abort :=
  fun _ => rfl

theorem withContext (g : Context → Context) :
    Mimics (Walk.map f) (Walking.withContext g) (Walking.withContext g) :=
  fun _ => rfl

theorem emitComment :
    Mimics (Walk.map f) (emitComment t mode depth n) (emitComment t mode depth n) := by
  unfold View.emitComment
  split
  · exact emit _ _
  · exact pure _ _

theorem eachElement {x : Walking τ Unit} {y : Walking σ Unit} (hxy : Mimics (Walk.map f) x y)
    (key : String) (vs : List Value) :
    Mimics (Walk.map f) (eachElement key x vs) (eachElement key y vs) := by
  induction vs with
  | nil => exact pure _ _
  | cons v vs ih => exact (withContext _).bind fun _ => hxy.bind fun _ => ih

theorem forEach {x : Walking τ Unit} {y : Walking σ Unit} (hxy : Mimics (Walk.map f) x y)
    (key : String) (vs : List Value) :
    Mimics (Walk.map f) (forEach key vs x) (forEach key vs y) :=
  get_bind fun _ => (eachElement hxy key vs).bind fun _ => withContext _

section Services

variable {r : Services τ} {f : τ → σ} {s : Services σ} (h : r.Mimics f s) {n : Node}
  {mode : EditMode} {t : Tree} {depth : Nat}
include h

theorem attributes (attrs : List (String × String)) :
    Mimics (Walk.map f) (attributes r mode n attrs) (attributes s mode n attrs) := by
  induction attrs with
  | nil => exact pure _ _
  | cons a attrs ih =>
    unfold View.attributes
    dsimp only
    split
    · exact (pure _ _).bind fun _ => ih.map _
    · exact ((perform fun c => interpolated h.evaluate c n _).map _).bind fun _ => ih.map _

theorem textOf (content : String) :
    Mimics (Walk.map f) (textOf r mode n content) (textOf s mode n content) := by
  unfold View.textOf
  split
  · exact pure _ _
  · exact (perform fun c => interpolated h.evaluate c n _).map _

theorem elements (key : String) :
    Mimics (Walk.map f) (elements r n key) (elements s n key) := by
  refine get_bind fun w => ?_
  dsimp only [Walk.map]
  split
  · exact pure _ _
  · refine (perform fun c => firstElements h.sources).bind fun vs => ?_
    cases vs <;> exact pure _ _

theorem listed {x : Walking τ Unit} {y : Walking σ Unit} (hxy : Mimics (Walk.map f) x y) :
    Mimics (Walk.map f) (listed r mode n x) (listed s mode n y) := by
  unfold View.listed
  split
  · exact (elements h _).bind fun vs => forEach hxy _ vs
  · exact hxy

theorem content {below : Nat → Walking τ Unit} {below' : Nat → Walking σ Unit}
    (hbelow : ∀ depth, Mimics (Walk.map f) (below depth) (below' depth)) :
    Mimics (Walk.map f) (content r t mode n depth below)
      (content s t mode n depth below') := by
  refine get_bind fun w => ?_
  dsimp only [Walk.map]
  split
  · exact pure _ _
  · refine (perform fun c => meetsConditions h.evaluate c n).bind fun shown => ?_
    split
    · exact pure _ _
    · refine (start _).bind fun _ => ?_
      split
      case h_1 => exact (emit _ _).bind fun _ => hbelow depth
      case h_2 =>
        refine emitComment.bind fun _ => (attributes h _).bind fun _ =>
          (emit _ _).bind fun _ => ?_
        split
        · exact (hbelow _).bind fun _ => emit _ _
        · exact pure _ _
      case h_3 => exact emitComment.bind fun _ => (textOf h _).bind fun _ => emit _ _
      case h_4 => exact hbelow depth
      case h_5 => exact hbelow depth

theorem enter {x : Walking τ Unit} {y : Walking σ Unit} (hxy : Mimics (Walk.map f) x y) :
    Mimics (Walk.map f) (enter r n x) (enter s n y) := by
  refine get_bind fun w => ?_
  dsimp only [Walk.map]
  split
  · exact pure _ _
  · refine (perform fun _ => h.isCancelled).bind fun cancelled => ?_
    split
    · exact abort
    · refine get_bind fun w => ?_
      dsimp only [Walk.map]
      rw [h.access]
      split
      · exact hxy
      · exact pure _ _

/-- A walk does not depend on what else there is in the state. -/
theorem node (b : Branch) :
    Mimics (Walk.map f) (node r t mode depth b) (node s t mode depth b) := by
  -- The depth varies on the way down.
  induction b generalizing depth with
  | mk n cs ih =>
    rw [View.node, View.node]
    refine enter h (listed h (content h fun depth => ?_))
    have hnodes : ∀ cs' ⊆ cs, Mimics (Walk.map f) (node.nodes r t mode depth cs')
        (node.nodes s t mode depth cs') := by
      intro cs' hsub
      induction cs' with
      | nil => exact pure _ _
      | cons c cs' ihs =>
        rw [List.cons_subset] at hsub
        rw [node.nodes, node.nodes]
        exact (ih c hsub.1).bind fun _ => ihs hsub.2
    exact hnodes cs (List.Subset.refl cs)

end Services

end Mimics

/-- The walk of a branch does not depend on what else there is in the state. -/
theorem map_walk {r : Services τ} {s : Services σ} {f : τ → σ} (h : r.Mimics f s) (t : Tree)
    (b : Branch) (c : Context) (e : τ) : (walk r t b c e).map f = walk s t b c (f e) :=
  (congrArg Prod.snd (Mimics.node h b { effects := e, context := c })).symm

/-! ### Records -/

/-- What a walk asks of its services. -/
inductive Call
  /-- The value of an expression, while the content of a node is written. -/
  | evaluation (n : Node) (c : Context) (expression : String)
  /-- The elements that a source has for a node, before its content is written. -/
  | lookup (n : Node) (c : Context)

/-- The same services with a record of their calls, last one first. -/
def Services.recording (s : Services σ) : Services (σ × List Call) where
  access := s.access
  evaluate c n expression := fun (e, calls) =>
    let (v, e) := (s.evaluate c n expression).run e
    (v, e, .evaluation n c expression :: calls)
  sources := s.sources.map fun source c n => fun (e, calls) =>
    let (vs, e) := (source c n).run e
    (vs, e, .lookup n c :: calls)
  isCancelled := fun (e, calls) =>
    let (cancelled, e) := s.isCancelled.run e
    (cancelled, e, calls)

theorem Services.mimics_recording (s : Services σ) : s.recording.Mimics Prod.fst s where
  access := rfl
  evaluate _ _ _ _ := rfl
  sources := by
    rw [Services.recording, List.forall₂_map_left_iff]
    exact List.forall₂_same.mpr fun _ _ _ _ _ => rfl
  isCancelled _ := rfl

/-- A pass with a record gives the same page, and leaves the same state behind. -/
theorem render_recording (s : Services σ) (settings : Settings) (t : Tree) (root : NodeId)
    (c : Context) (e : σ) (calls : List Call) :
    render s settings t root c e = (render s.recording settings t root c (e, calls)).map
      fun (output, c, e, _) => (output, c, e) := by
  cases hb : t.branch? root with
  | none => simp [render, hb, Except.map]
  | some b =>
    -- A page is what its walk has written.
    have hwalk : (walk s.recording t b c (e, calls)).map Prod.fst = walk s t b c e :=
      map_walk s.mimics_recording t b c (e, calls)
    simp [render, hb, Except.map, ← hwalk, Walk.output, Walk.map]

end ContentTree.View
