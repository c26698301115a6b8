import ContentTree.View.Pass

/-!
# Walks that write the same page

Two walks may go over different nodes and still write the same page. They then differ in nothing but
whether they have noticed a cancellation: a walk notices it when it next comes to a node, and the
two come to different ones. For the page this makes no difference, since a walk that has been
cancelled enters no further node in either case.

## Main definitions

* `Keeps`: a computation with effects that does not undo what a property says of the state.
* `Services.Lasting`: services that cancel a walk in their state, and never take that back.
* `Walk.Matches`, `Agree`: states of two walks, and parts of two walks that write the same.

## Main results

* `Agree.enter`, `Agree.listed`, `Agree.content`: a node is written alike where what is below it is.
* `Agree.skip`: coming to a node that must not be read agrees with not coming there.
-/

namespace ContentTree.View

variable {σ α β : Type}

/-! ### Effects that keep a property -/

/-- A computation does not undo what a property says of the state. -/
def Keeps (P : σ → Prop) (x : StateM σ α) : Prop :=
  ∀ e, P e → P (x.run e).2

namespace Keeps

variable {P : σ → Prop} {c : Context} {n : Node}

theorem pure (a : α) : Keeps P (Pure.pure a) :=
  fun _ he => he

theorem bind {x : StateM σ α} {f : α → StateM σ β} (hx : Keeps P x) (hf : ∀ a, Keeps P (f a)) :
    Keeps P (x >>= f) :=
  fun e he => hf _ _ (hx e he)

theorem map {x : StateM σ α} (hx : Keeps P x) (f : α → β) : Keeps P (f <$> x) :=
  fun e he => hx e he

theorem mapM {f : α → StateM σ β} (hf : ∀ a, Keeps P (f a)) (as : List α) :
    Keeps P (as.mapM f) := by
  induction as with
  | nil => exact pure _
  | cons a as ih =>
    rw [List.mapM_cons]
    exact (hf a).bind fun _ => ih.bind fun _ => pure _

variable {evaluate : Evaluator σ} (he : ∀ source, Keeps P (evaluate c n source))
include he

theorem interpolated (text : String) : Keeps P (interpolated evaluate c n text) := by
  refine (mapM (fun piece => ?_) _).bind fun _ => pure _
  cases piece with
  | literal text => exact pure _
  | expression source =>
    refine ((he _).map _).bind fun v => ?_
    cases v <;> exact pure _

theorem holds (truth : Bool) (condition : Option String) :
    Keeps P (holds evaluate c n truth condition) := by
  cases condition with
  | none => exact pure _
  | some condition =>
    refine (he condition).bind fun v => ?_
    split <;> exact pure _

theorem meetsConditions : Keeps P (meetsConditions evaluate c n) := by
  unfold View.meetsConditions
  split
  · exact pure _
  · refine (holds he _ _).bind fun hidden => ?_
    split
    · exact pure _
    · exact (holds he _ _).bind fun _ => pure _

omit he

theorem firstElements {sources : List (Source σ)}
    (hs : ∀ source ∈ sources, Keeps P (source c n)) :
    Keeps P (firstElements c n sources) := by
  induction sources with
  | nil => exact pure _
  | cons source sources ih =>
    rw [List.forall_mem_cons] at hs
    refine hs.1.bind fun r => ?_
    split
    · exact pure _
    · exact ih hs.2

end Keeps

/-- What services say in a state when they are asked whether the walk has been cancelled. -/
def Services.cancelled (s : Services σ) (e : σ) : Bool :=
  (s.isCancelled.run e).1

/-- Whether a walk has been cancelled is up to the state, and to ask has no effects. Evaluations and
sources never take a cancellation back. -/
structure Services.Lasting (s : Services σ) : Prop where
  isCancelled : ∀ e, (s.isCancelled.run e).2 = e
  evaluate : ∀ c n source, Keeps (s.cancelled · = true) (s.evaluate c n source)
  sources : ∀ source ∈ s.sources, ∀ c n, Keeps (s.cancelled · = true) (source c n)

/-! ### Entering a node -/

section Enter

variable {s : Services σ} {n : Node} {w : Walk σ} {e : σ} {x : Walking σ Unit}

theorem run_perform (act : Context → StateM σ α) (w : Walk σ) :
    (Walking.perform act).run w = (((act w.context).run w.effects).1,
      { w with effects := ((act w.context).run w.effects).2 }) :=
  rfl

/-- A walk that has noticed its cancellation enters no node. -/
theorem enter_of_aborted (ha : w.aborted = true) : (enter s n x).run w = ((), w) := by
  simp only [enter, StateT.run_bind, StateT.run_get, pure_bind, ha, ↓reduceIte]
  rfl

/-- Where a walk notices its cancellation. -/
theorem enter_of_cancelled (ha : w.aborted = false)
    (hc : s.isCancelled.run w.effects = (true, e)) :
    (enter s n x).run w = ((), { w with effects := e, aborted := true }) := by
  simp only [enter, StateT.run_bind, StateT.run_get, pure_bind, ha, Bool.false_eq_true, ↓reduceIte,
    run_perform, hc]
  rfl

theorem enter_of_running (ha : w.aborted = false)
    (hc : s.isCancelled.run w.effects = (false, e)) :
    (enter s n x).run w = (if s.access.canRead w.context.principal n && !isGated w.context n then x
      else pure ()).run { w with effects := e } := by
  simp only [enter, StateT.run_bind, StateT.run_get, pure_bind, ha, Bool.false_eq_true, ↓reduceIte,
    run_perform, hc]
  rfl

end Enter

/-! ### Two walks -/

variable {s : Services σ} {p : Principal} {mode : EditMode} {t : Tree} {n : Node} {depth : Nat}

/-- The states of two walks for a principal differ in nothing but whether a cancellation has been
noticed, and none has been noticed that has not taken place. -/
structure Walk.Matches (s : Services σ) (p : Principal) (w w' : Walk σ) : Prop where
  effects : w'.effects = w.effects
  context : w'.context = w.context
  lines : w'.lines = w.lines
  started : w'.started = w.started
  principal : w.context.principal = p
  cancelled : w.aborted = true ∨ w'.aborted = true → s.cancelled w.effects = true

/-- Parts of two walks for a principal have the same result and write the same. -/
def Agree (s : Services σ) (p : Principal) (x y : Walking σ α) : Prop :=
  ∀ ⦃w w'⦄, Walk.Matches s p w w' →
    (x.run w).1 = (y.run w').1 ∧ Walk.Matches s p (x.run w).2 (y.run w').2

namespace Walk.Matches

/-- Two walks that start alike. -/
theorem start (s : Services σ) (c : Context) (e : σ) :
    Walk.Matches s c.principal { effects := e, context := c } { effects := e, context := c } :=
  ⟨rfl, rfl, rfl, rfl, rfl, by simp⟩

variable {w w' : Walk σ} (hw : Walk.Matches s p w w')
include hw

theorem not_aborted (hc : s.cancelled w.effects = false) :
    w.aborted = false ∧ w'.aborted = false := by
  simpa [hc] using hw.cancelled

theorem abort (hc : s.cancelled w.effects = true) (b b' : Bool) :
    Walk.Matches s p { w with aborted := b } { w' with aborted := b' } :=
  ⟨hw.effects, hw.context, hw.lines, hw.started, hw.principal, fun _ => hc⟩

end Walk.Matches

namespace Services.Lasting

variable (hs : s.Lasting) {w : Walk σ} {x : Walking σ Unit}
include hs

theorem run_isCancelled (e : σ) : s.isCancelled.run e = (s.cancelled e, e) :=
  Prod.ext rfl (hs.isCancelled e)

/-- A walk that has been cancelled enters no node, and has noticed so at the latest here. -/
theorem enter_of_cancelled (hc : s.cancelled w.effects = true) :
    ∃ b, (enter s n x).run w = ((), { w with aborted := b }) := by
  cases ha : w.aborted with
  | true => exact ⟨true, by rw [enter_of_aborted ha, ← ha]⟩
  | false => exact ⟨true, View.enter_of_cancelled ha (hc ▸ hs.run_isCancelled w.effects)⟩

theorem enter_of_running (ha : w.aborted = false) (hc : s.cancelled w.effects = false) :
    (enter s n x).run w = (if s.access.canRead w.context.principal n && !isGated w.context n then x
      else pure ()).run w :=
  View.enter_of_running ha (hc ▸ hs.run_isCancelled w.effects)

end Services.Lasting

namespace Agree

theorem pure (a : α) : Agree s p (Pure.pure a) (Pure.pure a) :=
  fun _ _ hw => ⟨rfl, hw⟩

theorem bind {x y : Walking σ α} {f g : α → Walking σ β} (hxy : Agree s p x y)
    (hfg : ∀ a, Agree s p (f a) (g a)) : Agree s p (x >>= f) (y >>= g) := by
  intro w w' hw
  obtain ⟨ha, hw⟩ := hxy hw
  have hf := hfg (x.run w).1 hw
  rw [show (y >>= g).run w' = (g (y.run w').1).run (y.run w').2 from rfl, ← ha]
  exact hf

theorem map {x y : Walking σ α} (hxy : Agree s p x y) (f : α → β) :
    Agree s p (f <$> x) (f <$> y) :=
  fun _ _ hw => ⟨congrArg f (hxy hw).1, (hxy hw).2⟩

/-- What follows may look at the state, but not at whether a cancellation has been noticed. -/
theorem get_bind {f g : Walk σ → Walking σ α}
    (hfg : ∀ w w', Walk.Matches s p w w' → Agree s p (f w) (g w')) :
    Agree s p (get >>= f) (get >>= g) :=
  fun w w' hw => hfg w w' hw hw

theorem perform {act : Context → StateM σ α}
    (hact : ∀ c, Keeps (s.cancelled · = true) (act c)) :
    Agree s p (Walking.perform act) (Walking.perform act) := by
  rintro ⟨_, _, _, _, _⟩ ⟨_, _, _, _, _⟩ ⟨rfl, rfl, rfl, rfl, hp, hc⟩
  exact ⟨rfl, rfl, rfl, rfl, rfl, hp, fun h => hact _ _ (hc h)⟩

theorem emit (depth : Nat) (piece : Html.Piece) :
    Agree s p (Walking.emit depth piece) (Walking.emit depth piece) :=
  fun _ _ hw => ⟨rfl, hw.effects, hw.context, congrArg (Html.Line.mk depth piece :: ·) hw.lines,
    hw.started, hw.principal, hw.cancelled⟩

theorem start (id : NodeId) : Agree s p (Walking.start id) (Walking.start id) :=
  fun _ _ hw => ⟨rfl, hw.effects, hw.context, hw.lines, congrArg (id :: ·) hw.started,
    hw.principal, hw.cancelled⟩

theorem withContext {f : Context → Context} (hf : ∀ c, (f c).principal = c.principal) :
    Agree s p (Walking.withContext f) (Walking.withContext f) :=
  fun _ _ hw => ⟨rfl, hw.effects, congrArg f hw.context, hw.lines, hw.started,
    (hf _).trans hw.principal, hw.cancelled⟩

/-! ### Nodes -/

theorem emitComment : Agree s p (emitComment t mode depth n) (emitComment t mode depth n) := by
  unfold View.emitComment
  split
  · exact emit _ _
  · exact pure _

theorem eachElement {x y : Walking σ Unit} (hxy : Agree s p x y) (key : String)
    (vs : List Value) : Agree s p (eachElement key x vs) (eachElement key y vs) := by
  induction vs with
  | nil => exact pure _
  | cons v vs ih =>
    exact (withContext (f := (·.bind key v)) fun _ => rfl).bind fun _ => hxy.bind fun _ => ih

theorem forEach {x y : Walking σ Unit} (hxy : Agree s p x y) (key : String) (vs : List Value) :
    Agree s p (forEach key vs x) (forEach key vs y) := by
  refine get_bind fun w w' hw => ?_
  rw [hw.context]
  exact (eachElement hxy key vs).bind fun _ => withContext fun _ => rfl

variable (hs : s.Lasting)
include hs

theorem enter {x y : Walking σ Unit} (hxy : Agree s p x y) :
    Agree s p (enter s n x) (enter s n y) := by
  intro w w' hw
  cases hc : s.cancelled w.effects with
  | true =>
    -- Once cancelled, neither walk goes on, though only one may have noticed so far.
    obtain ⟨b, hb⟩ := hs.enter_of_cancelled (n := n) (x := x) hc
    obtain ⟨b', hb'⟩ := hs.enter_of_cancelled (n := n) (x := y) (hw.effects ▸ hc)
    rw [hb, hb']
    exact ⟨rfl, hw.abort hc b b'⟩
  | false =>
    obtain ⟨ha, ha'⟩ := hw.not_aborted hc
    rw [hs.enter_of_running ha hc, hs.enter_of_running ha' (hw.effects ▸ hc), hw.context]
    split
    · exact hxy hw
    · exact ⟨rfl, hw⟩

/-- A walk that comes to a node which it must not read agrees with one that does not come there. -/
theorem skip {x : Walking σ Unit} (hn : s.access.canRead p n = false) :
    Agree s p (View.enter s n x) (Pure.pure ()) := by
  intro w w' hw
  cases hc : s.cancelled w.effects with
  | true =>
    obtain ⟨b, hb⟩ := hs.enter_of_cancelled (n := n) (x := x) hc
    rw [hb]
    exact ⟨rfl, hw.abort hc b w'.aborted⟩
  | false =>
    rw [hs.enter_of_running (hw.not_aborted hc).1 hc, hw.principal, hn]
    exact ⟨rfl, hw⟩

theorem attributes (attrs : List (String × String)) :
    Agree s p (attributes s mode n attrs) (attributes s mode n attrs) := by
  induction attrs with
  | nil => exact pure _
  | cons a attrs ih =>
    unfold View.attributes
    dsimp only
    split
    · exact (pure _).bind fun _ => ih.map _
    · exact ((perform fun _ => Keeps.interpolated (hs.evaluate _ _) _).map _).bind fun _ => ih.map _

theorem textOf (content : String) :
    Agree s p (textOf s mode n content) (textOf s mode n content) := by
  unfold View.textOf
  split
  · exact pure _
  · exact (perform fun _ => Keeps.interpolated (hs.evaluate _ _) _).map _

theorem elements (key : String) : Agree s p (elements s n key) (elements s n key) := by
  refine get_bind fun w w' hw => ?_
  rw [hw.context]
  dsimp only
  split
  · exact pure _
  · have hfirst : ∀ c, Keeps (s.cancelled · = true) (firstElements c n s.sources) :=
      fun c => Keeps.firstElements fun source hsource => hs.sources source hsource c n
    refine (perform hfirst).bind fun vs => ?_
    cases vs <;> exact pure _

theorem listed {x y : Walking σ Unit} (hxy : Agree s p x y) :
    Agree s p (listed s mode n x) (listed s mode n y) := by
  unfold View.listed
  split
  · exact (elements hs _).bind fun vs => forEach hxy _ vs
  · exact hxy

theorem content {below below' : Nat → Walking σ Unit}
    (hbelow : ∀ depth, Agree s p (below depth) (below' depth)) :
    Agree s p (content s t mode n depth below) (content s t mode n depth below') := by
  refine get_bind fun w w' hw => ?_
  rw [hw.context]
  split
  · exact pure _
  · refine (perform fun _ => Keeps.meetsConditions (hs.evaluate _ _)).bind fun shown => ?_
    split
    · exact pure _
    · refine (start _).bind fun _ => ?_
      split
      case h_1 => exact (emit _ _).bind fun _ => hbelow depth
      case h_2 =>
        refine emitComment.bind fun _ => (attributes hs _).bind fun _ => (emit _ _).bind fun _ => ?_
        split
        · exact (hbelow _).bind fun _ => emit _ _
        · exact pure _
      case h_3 => exact emitComment.bind fun _ => (textOf hs _).bind fun _ => emit _ _
      case h_4 => exact hbelow depth
      case h_5 => exact hbelow depth

end Agree

end ContentTree.View
