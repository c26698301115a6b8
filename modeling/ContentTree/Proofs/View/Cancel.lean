import ContentTree.Proofs.View.Content
import ContentTree.Proofs.View.Scope
import ContentTree.View.Pass

/-!
# Cancelled walks

A walk that is cancelled begins the contents that it would have begun undisturbed, up to the node at
which it notices: it does not enter this node, nor any other. Lists are an exception. The lists
around that node go on, and begin the contents of their further elements, now without anything
below them.

## Main definitions

* `Services.undisturbed`: the same services, with nobody to cancel.
* `listIds`: the nodes with a list among some nodes.
* `Walk.Apart`: the states of two walks after one of them has noticed a cancellation.
* `Halts`: a part of a walk that begins nothing new after a cancellation but elements of lists.
* `Forks`, `Cuts`: parts of two walks that do the same until one of them notices a cancellation.

## Main results

* `Forks.enter`: where a walk notices.
* `Cuts.content`: what a list goes on with.
* `Cuts.node`: a branch, cancelled and undisturbed.
* `walk_cancelled`: what a cancelled walk begins, in comparison with an undisturbed one.
-/

namespace ContentTree.View

variable {σ α β : Type} {s : Services σ} {t : Tree} {mode : EditMode} {root : NodeId} {n : Node}
  {depth : Nat} {key : String} {above : List Node}

/-- The same services, with nobody to cancel a walk: whoever asks is told so, and what else it is to
ask stays the same. -/
def Services.undisturbed (s : Services σ) : Services σ :=
  { s with isCancelled := (fun _ => false) <$> s.isCancelled }

theorem Services.run_undisturbed (s : Services σ) (e : σ) :
    s.undisturbed.isCancelled.run e = (false, (s.isCancelled.run e).2) :=
  rfl

/-- The nodes with a list among the given nodes. -/
def listIds (mode : EditMode) (ns : List Node) : List NodeId :=
  (ns.filter fun n => (listKey? mode n).isSome).map Node.id

theorem mem_listIds_append_self (ns : List Node) (h : listKey? mode n = some key) :
    n.id ∈ listIds mode (ns ++ [n]) := by
  simp [listIds, h]

theorem listIds_subset {ns ns' : List Node} (h : ns <+: ns') :
    listIds mode ns ⊆ listIds mode ns' :=
  ((h.filter _).map _).subset

/-! ### Parts of one walk -/

/-- A part of a walk begins no content, and does not notice a cancellation. -/
def Calm (x : Walking σ α) : Prop :=
  ∀ w, (x.run w).2.aborted = w.aborted ∧ (x.run w).2.started = w.started

/-- A part of a walk takes nothing back that has been begun. -/
def Grows (x : Walking σ α) : Prop :=
  ∀ w, w.started <:+ (x.run w).2.started

/-- After a cancellation has been noticed, a part of a walk begins nothing but the contents of lists
among the given nodes. -/
def Halts (mode : EditMode) (above : List Node) (x : Walking σ α) : Prop :=
  ∀ w, w.aborted = true → (x.run w).2.aborted = true ∧
    ∃ extra ⊆ listIds mode above, (x.run w).2.started = extra ++ w.started

theorem Quiet.calm {x : Walking σ α} (hx : Quiet x) : Calm x :=
  fun w => ⟨hx.aborted w, hx.started w⟩

namespace Calm

theorem pure (a : α) : Calm (Pure.pure a : Walking σ α) :=
  fun _ => ⟨rfl, rfl⟩

theorem emit (depth : Nat) (piece : Html.Piece) :
    Calm (Walking.emit depth piece : Walking σ Unit) :=
  fun _ => ⟨rfl, rfl⟩

theorem emitComment : Calm (emitComment t mode depth n : Walking σ Unit) := by
  unfold View.emitComment
  split
  · exact emit _ _
  · exact pure _

variable {x : Walking σ α} (hx : Calm x)
include hx

theorem grows : Grows x :=
  fun w => (hx w).2 ▸ List.suffix_rfl

theorem halts : Halts mode above x :=
  fun w ha => ⟨(hx w).1.trans ha, [], List.nil_subset _, (hx w).2⟩

end Calm

namespace Grows

theorem bind {x : Walking σ α} {f : α → Walking σ β} (hx : Grows x) (hf : ∀ a, Grows (f a)) :
    Grows (x >>= f) :=
  fun w => (hx w).trans (hf _ _)

theorem start (id : NodeId) : Grows (Walking.start id : Walking σ Unit) :=
  fun _ => List.suffix_cons _ _

end Grows

namespace Halts

theorem bind {x : Walking σ α} {f : α → Walking σ β} (hx : Halts mode above x)
    (hf : ∀ a, Halts mode above (f a)) : Halts mode above (x >>= f) := by
  intro w ha
  obtain ⟨ha, extra, hsub, hstarted⟩ := hx w ha
  obtain ⟨ha', extra', hsub', hstarted'⟩ := hf (x.run w).1 _ ha
  refine ⟨ha', extra' ++ extra, List.append_subset.mpr ⟨hsub', hsub⟩, ?_⟩
  rw [List.append_assoc, ← hstarted]
  exact hstarted'

theorem start {id : NodeId} (hid : id ∈ listIds mode above) :
    Halts mode above (Walking.start id : Walking σ Unit) :=
  fun _ ha => ⟨ha, [id], List.cons_subset.mpr ⟨hid, List.nil_subset _⟩, rfl⟩

/-- Once a cancellation has been noticed, no node is entered. -/
theorem enter (x : Walking σ Unit) : Halts mode above (enter s n x) := by
  intro w ha
  rw [enter_of_aborted ha]
  exact ⟨ha, [], List.nil_subset _, rfl⟩

end Halts

/-! ### Two walks -/

/-- The states of two walks after the first of them has noticed a cancellation, at a node below the
given ones: what it has begun, the second one has begun as well, except for further elements of the
lists around that node. -/
structure Walk.Apart (t : Tree) (mode : EditMode) (root : NodeId) (above : List Node)
    (w w₀ : Walk σ) : Prop where
  aborted : w.aborted = true
  begun : ∃ (around : List Node) (c : NodeId) (extra begun : List NodeId),
    above <+: around ∧ t.Way root around c ∧ extra ⊆ listIds mode around ∧
      w.started = extra ++ begun ∧ begun <:+ w₀.started

/-- Parts of two walks do the same, until the first of them notices a cancellation at a node below
the given ones. -/
def Forks (t : Tree) (mode : EditMode) (root : NodeId) (above : List Node) (x y : Walking σ α) :
    Prop :=
  ∀ w, w.aborted = false → (x.run w = y.run w ∧ (y.run w).2.aborted = false) ∨
    Walk.Apart t mode root above (x.run w).2 (y.run w).2

namespace Walk.Apart

variable {w w₀ : Walk σ} (h : Walk.Apart t mode root above w w₀)
include h

theorem outward {above' : List Node} (hsub : above' <+: above) :
    Walk.Apart t mode root above' w w₀ :=
  ⟨h.aborted, h.begun.imp fun _ => fun ⟨c, extra, begun, hpre, hrest⟩ =>
    ⟨c, extra, begun, hsub.trans hpre, hrest⟩⟩

/-- The two may go on in different ways. -/
theorem run {x : Walking σ α} {y : Walking σ β} (hx : Halts mode above x) (hy : Grows y) :
    Walk.Apart t mode root above (x.run w).2 (y.run w₀).2 := by
  obtain ⟨around, c, extra, begun, hpre, hway, hsub, hstarted, hbegun⟩ := h.begun
  obtain ⟨ha, extra', hsub', hstarted'⟩ := hx w h.aborted
  refine ⟨ha, around, c, extra' ++ extra, begun, hpre, hway, ?_, ?_, hbegun.trans (hy w₀)⟩
  · exact List.append_subset.mpr ⟨List.Subset.trans hsub' (listIds_subset hpre), hsub⟩
  · rw [hstarted', hstarted, List.append_assoc]

end Walk.Apart

namespace Forks

variable {x y : Walking σ α} {f g : α → Walking σ β}

theorem refl_of_calm (hx : Calm x) : Forks t mode root above x x :=
  fun w ha => .inl ⟨rfl, (hx w).1.trans ha⟩

theorem bind (hxy : Forks t mode root above x y) (hfg : ∀ a, Forks t mode root above (f a) (g a))
    (hf : ∀ a, Halts mode above (f a)) (hg : ∀ a, Grows (g a)) :
    Forks t mode root above (x >>= f) (y >>= g) := by
  intro w ha
  obtain ⟨heq, ha'⟩ | hapart := hxy w ha
  · have h := hfg (y.run w).1 (y.run w).2 ha'
    rw [show (x >>= f).run w = (f (x.run w).1).run (x.run w).2 from rfl, heq]
    exact h
  · exact .inr (hapart.run (hf _) (hg _))

/-- Before the first node is come to, nothing can be noticed. -/
theorem calm_bind (hx : Calm x) (hfg : ∀ a, Forks t mode root above (f a) (g a)) :
    Forks t mode root above (x >>= f) (x >>= g) :=
  fun w ha => hfg _ _ ((hx w).1.trans ha)

theorem start_bind {id : NodeId} {f g : Unit → Walking σ β}
    (hfg : Forks t mode root above (f ()) (g ())) :
    Forks t mode root above (Walking.start id >>= f) (Walking.start id >>= g) :=
  fun _ ha => hfg _ ha

theorem outward {above' : List Node} (h : Forks t mode root above x y)
    (hsub : above' <+: above) : Forks t mode root above' x y :=
  fun w ha => (h w ha).imp_right fun hapart => hapart.outward hsub

end Forks

/-- Parts of two walks do the same, until the first of them notices a cancellation, and both may
follow when that has happened. -/
structure Cuts (t : Tree) (mode : EditMode) (root : NodeId) (above : List Node)
    (x y : Walking σ α) : Prop where
  forks : Forks t mode root above x y
  halts : Halts mode above x
  grows : Grows y

namespace Cuts

variable {x y : Walking σ α} {f g : α → Walking σ β}

theorem refl_of_calm (hx : Calm x) : Cuts t mode root above x x :=
  ⟨.refl_of_calm hx, hx.halts, hx.grows⟩

theorem bind (hxy : Cuts t mode root above x y) (hfg : ∀ a, Cuts t mode root above (f a) (g a)) :
    Cuts t mode root above (x >>= f) (y >>= g) where
  forks := hxy.forks.bind (fun a => (hfg a).forks) (fun a => (hfg a).halts) fun a => (hfg a).grows
  halts := hxy.halts.bind fun a => (hfg a).halts
  grows := hxy.grows.bind fun a => (hfg a).grows

end Cuts

/-! ### Nodes -/

theorem attributes_undisturbed (attrs : List (String × String)) :
    attributes s.undisturbed mode n attrs = attributes s mode n attrs := by
  induction attrs with
  | nil => rfl
  | cons a attrs ih =>
    rw [attributes, attributes, ih]
    rfl

section Content

variable {below below₀ : Nat → Walking σ Unit}
  (hbelow : ∀ depth, Cuts t mode root above (below depth) (below₀ depth))
include hbelow

theorem Cuts.body : Cuts t mode root above (body s t mode n depth below)
    (body s.undisturbed t mode n depth below₀) := by
  have hcalm : ∀ {α} {x : Walking σ α}, Calm x → Cuts t mode root above x x := fun h =>
    Cuts.refl_of_calm h
  unfold View.body
  split
  case h_1 => exact (hcalm (.emit _ _)).bind fun _ => hbelow depth
  case h_2 =>
    rw [attributes_undisturbed]
    refine (hcalm .emitComment).bind fun _ => (hcalm (Quiet.attributes _).calm).bind fun _ =>
      (hcalm (.emit _ _)).bind fun _ => ?_
    split
    · exact (hbelow _).bind fun _ => hcalm (.emit _ _)
    · exact hcalm (.pure _)
  case h_3 =>
    exact (hcalm .emitComment).bind fun _ => (hcalm (Quiet.textOf _).calm).bind fun _ =>
      hcalm (.emit _ _)
  case h_4 => exact hbelow depth
  case h_5 => exact hbelow depth

theorem Forks.content : Forks t mode root above (content s t mode n depth below)
    (content s.undisturbed t mode n depth below₀) := by
  rw [content_eq_body, content_eq_body]
  refine calm_bind Quiet.get.calm fun w => ?_
  split
  · exact refl_of_calm (.pure _)
  · refine calm_bind (Quiet.perform _).calm fun shown => ?_
    split
    · exact refl_of_calm (.pure _)
    · exact start_bind (Cuts.body hbelow).forks

theorem Grows.content : Grows (content s.undisturbed t mode n depth below₀) := by
  rw [content_eq_body]
  refine Quiet.get.calm.grows.bind fun w => ?_
  split
  · exact (Calm.pure _).grows
  · refine (Quiet.perform _).calm.grows.bind fun shown => ?_
    split
    · exact (Calm.pure _).grows
    · exact (Grows.start _).bind fun _ => (Cuts.body (s := s) hbelow).grows

/-- The content of a node with a list may be begun even after a cancellation has been noticed. -/
theorem Cuts.content (hn : n.id ∈ listIds mode above) :
    Cuts t mode root above (content s t mode n depth below)
      (content s.undisturbed t mode n depth below₀) where
  forks := Forks.content hbelow
  grows := Grows.content hbelow
  halts := by
    rw [content_eq_body]
    refine Quiet.get.calm.halts.bind fun w => ?_
    split
    · exact (Calm.pure _).halts
    · refine (Quiet.perform _).calm.halts.bind fun shown => ?_
      split
      · exact (Calm.pure _).halts
      · exact (Halts.start hn).bind fun _ => (Cuts.body (s := s) hbelow).halts

end Content

theorem Cuts.eachElement {write write₀ : Walking σ Unit}
    (hwrite : Cuts t mode root above write write₀) (vs : List Value) :
    Cuts t mode root above (eachElement key write vs) (eachElement key write₀ vs) := by
  induction vs with
  | nil => exact .refl_of_calm (.pure _)
  | cons v vs ih =>
    exact (Cuts.refl_of_calm (Quiet.withContext _).calm).bind fun _ => hwrite.bind fun _ => ih

theorem Cuts.forEach {write write₀ : Walking σ Unit}
    (hwrite : Cuts t mode root above write write₀) (vs : List Value) :
    Cuts t mode root above (forEach key vs write) (forEach key vs write₀) :=
  (Cuts.refl_of_calm Quiet.get.calm).bind fun _ => (eachElement hwrite vs).bind fun _ =>
    .refl_of_calm (Quiet.withContext _).calm

theorem Grows.enter {y : Walking σ Unit} (hy : Grows y) : Grows (enter s.undisturbed n y) := by
  intro w
  cases ha : w.aborted with
  | true => rw [enter_of_aborted ha]
  | false =>
    rw [enter_of_running ha (s.run_undisturbed w.effects)]
    split
    · exact hy { w with effects := (s.isCancelled.run w.effects).2 }
    · exact List.suffix_rfl

/-- Where a walk notices that it has been cancelled. -/
theorem Forks.enter {x y : Walking σ Unit} (hway : t.Way root above n.id)
    (hxy : Forks t mode root above x y) (hy : Grows y) :
    Forks t mode root above (enter s n x) (enter s.undisturbed n y) := by
  intro w ha
  rcases hask : s.isCancelled.run w.effects with ⟨cancelled, e⟩
  cases cancelled with
  | true =>
    rw [enter_of_cancelled ha hask]
    exact .inr ⟨rfl, above, n.id, [], w.started, List.prefix_rfl, hway, List.nil_subset _, rfl,
      hy.enter w⟩
  | false =>
    rw [enter_of_running ha hask, enter_of_running ha (s.run_undisturbed w.effects), hask]
    -- Both ask the same access control.
    rw [show s.undisturbed.access = s.access from rfl]
    split
    · exact hxy _ ha
    · exact .inl ⟨rfl, ha⟩

section Listed

variable {write write₀ : Walking σ Unit}
  (hlist : ∀ key, listKey? mode n = some key → Cuts t mode root above write write₀)
include hlist

theorem Forks.listed (hsingle : Forks t mode root above write write₀) :
    Forks t mode root above (listed s mode n write) (listed s.undisturbed mode n write₀) := by
  unfold View.listed
  rw [← listKey?]
  cases hkey : listKey? mode n with
  | none => exact hsingle
  | some key => exact calm_bind Quiet.elements.calm fun vs => ((hlist key hkey).forEach vs).forks

theorem Grows.listed (hsingle : Grows write₀) : Grows (listed s.undisturbed mode n write₀) := by
  unfold View.listed
  rw [← listKey?]
  cases hkey : listKey? mode n with
  | none => exact hsingle
  | some key => exact Quiet.elements.calm.grows.bind fun vs => ((hlist key hkey).forEach vs).grows

end Listed

/-! ### Branches and passes -/

/-- A branch, written by a walk that may be cancelled and by one that may not. -/
theorem Cuts.node (ht : t.WellFormed) {b : Branch} (hb : b.Shows t)
    (hway : t.Way root above b.id) :
    Cuts t mode root above (node s t mode depth b) (node s.undisturbed t mode depth b) := by
  -- The depth and the nodes above vary on the way down.
  induction b generalizing above depth with
  | mk n cs ih =>
    have hn : t.node? n.id = some n := hb.node?
    have hnodes : ∀ depth, Cuts t mode root (above ++ [n]) (node.nodes s t mode depth cs)
        (node.nodes s.undisturbed t mode depth cs) := by
      intro depth
      have hsubset : ∀ cs' ⊆ cs, Cuts t mode root (above ++ [n]) (node.nodes s t mode depth cs')
          (node.nodes s.undisturbed t mode depth cs') := by
        intro cs' hsub
        induction cs' with
        | nil => exact .refl_of_calm (.pure _)
        | cons child cs' ihs =>
          rw [List.cons_subset] at hsub
          have hunder : t.Under child.id n.id := hb.under_of_mem_children ht hsub.1
          rw [node.nodes, node.nodes]
          exact (ih child hsub.1 (hb.of_mem_children hsub.1) (hway.child hn hunder)).bind
            fun _ => ihs hsub.2
      exact hsubset cs (List.Subset.refl cs)
    have hlist : ∀ key, listKey? mode n = some key → Cuts t mode root (above ++ [n])
        (View.content s t mode n depth fun depth => node.nodes s t mode depth cs)
        (View.content s.undisturbed t mode n depth fun depth =>
          node.nodes s.undisturbed t mode depth cs) :=
      fun key hkey => .content hnodes (mem_listIds_append_self above hkey)
    have hgrows := Grows.listed (s := s) hlist (Grows.content hnodes)
    rw [View.node, View.node]
    refine ⟨?_, .enter _, hgrows.enter⟩
    exact Forks.enter hway ((Forks.listed hlist (Forks.content hnodes)).outward
      (List.prefix_append _ _)) hgrows

/-- The same state of a pass, with nobody to cancel it. -/
def Pass.undisturbed (p : Pass) : Pass :=
  { p with cancelled := false, cancelAt := none }

/-- To look away from a cancellation comes to the same as never to cancel. -/
theorem Pass.mimics_undisturbed (access : Access) {f : Backend} {parameter : String}
    {sources : List (Source Pass)}
    (hsources : sources ⊆ Source.standard f Pass.evaluate parameter) :
    (services access sources).undisturbed.Mimics undisturbed (services access sources) where
  access := rfl
  evaluate _ _ _ _ := rfl
  isCancelled _ := rfl
  sources := by
    have hevaluate : ∀ c n source, Mimics Pass.undisturbed (Pass.evaluate c n source)
        (Pass.evaluate c n source) := fun _ _ _ _ => rfl
    have hstandard := Mimics.standard hevaluate f parameter
    exact List.forall₂_same.mpr fun source hsource =>
      List.forall₂_same.mp hstandard source (hsources hsource)

/-- What a walk begins that is cancelled at any moment: first what it would have begun undisturbed,
from the start and in the same order, and then nothing but the contents of lists around one node,
the one at which it notices. If it does not come to a node any more it is not cut at all. To pay no
heed to a cancellation at one of the evaluations of a pass is as good as not to cancel it. -/
theorem walk_cancelled (ht : t.WellFormed) (hn : t.node? root = some n) (c : Context) :
    ∃ b, t.branch? root = some b ∧
      (∀ (σ : Type) (s : Services σ) (e : σ),
        (∃ begun extra : List NodeId, (walk s t b c e).started.reverse = begun ++ extra ∧
          begun <+: (walk s.undisturbed t b c e).started.reverse ∧
          ∃ around x, t.Way root around x ∧ extra ⊆ listIds c.mode around) ∧
        ((walk s t b c e).aborted = false → walk s t b c e = walk s.undisturbed t b c e)) ∧
      ∀ (access : Access) (f : Backend) (parameter : String) (sources : List (Source Pass)),
        sources ⊆ Source.standard f Pass.evaluate parameter → ∀ (p : Pass) (k : Nat),
        (walk (Pass.services access sources).undisturbed t b c
            { p.undisturbed with cancelAt := some k }).started =
          (walk (Pass.services access sources) t b c p.undisturbed).started := by
  obtain ⟨b, hb, -, hshows⟩ := ht.exists_branch hn
  obtain ⟨rfl, -⟩ := ht.branch?_eq_some_iff.mp hb
  refine ⟨b, hb, fun σ s e => ?_, fun access f parameter sources hsources p k => ?_⟩
  · have hcuts : Cuts t c.mode b.id [] (node s t c.mode 0 b) (node s.undisturbed t c.mode 0 b) :=
      .node ht hshows .root
    rcases hcuts.forks { effects := e, context := c } rfl with ⟨heq, -⟩ | ⟨ha, hbegun⟩
    · have hwalk : walk s t b c e = walk s.undisturbed t b c e := congrArg Prod.snd heq
      refine ⟨⟨_, [], (List.append_nil _).symm, ?_, [], b.id, .root, List.nil_subset _⟩,
        fun _ => hwalk⟩
      rw [hwalk]
    · obtain ⟨around, x, extra, begun, -, hway, hsub, hstarted, hsuffix⟩ := hbegun
      have hstarted : (walk s t b c e).started = extra ++ begun := hstarted
      refine ⟨⟨begun.reverse, extra.reverse, ?_, List.reverse_prefix.mpr hsuffix, around, x, hway,
        ?_⟩, fun hna => ?_⟩
      · rw [hstarted, List.reverse_append]
      · exact fun id hid => hsub (List.mem_reverse.mp hid)
      · exact absurd (ha.symm.trans hna) nofun
  · have h := map_walk (Pass.mimics_undisturbed access hsources) t b c
      { p.undisturbed with cancelAt := some k }
    exact (congrArg Walk.started h :)

/-- Two texts for each element of a list. -/
def greetings : Snapshot :=
  let list : Properties := { dataKey := some "item", restQuery := some "items" }
  .mk (some 1) { kind := .element "li" ∅, properties := list } none
    [.mk (some 2) { kind := .text "a$\x7bitem\x7d" none } none [],
    .mk (some 3) { kind := .text "b" none } none []]

/-- The services of a pass that knows the elements for it. -/
def greeters : Services Pass :=
  let f : Fixtures := { queries := .ofList [("items", [Value.string "x", Value.string "y"])] }
  Pass.services .unrestricted (Source.standard f.backend Pass.evaluate "nodeId")

/-- The list around the cancelled node goes on. -/
theorem walk_cancelled_greetings :
    let t := (({} : Tree).load greetings).2
    ∃ b, t.branch? 1 = some b ∧ ∃ begun extra : List NodeId,
      (walk greeters t b {} { cancelAt := some 1 }).started.reverse = begun ++ extra ∧
      begun <+: (walk greeters t b {} {}).started.reverse ∧
      ∃ around x, t.Way 1 around x ∧ extra ⊆ listIds .normal around := by
  intro t
  have ht : t.Reachable .successful := .load .empty greetings ⟨1, by decide⟩
  have hroot : t.node? 1 = some _ := rfl
  obtain ⟨b, hb, hcut, hpass⟩ := walk_cancelled ht.sound.toWellFormed hroot {}
  have hundisturbed : (walk greeters.undisturbed t b {} { cancelAt := some 1 }).started =
      (walk greeters t b {} {}).started :=
    hpass .unrestricted _ "nodeId" _ (List.Subset.refl _) {} 1
  obtain ⟨⟨begun, extra, hstarted, hprefixed, hway⟩, -⟩ :=
    hcut Pass greeters { cancelAt := some 1 }
  exact ⟨b, hb, begun, extra, hstarted, hundisturbed ▸ hprefixed, hway⟩

/-- What is begun after a cancellation need not be what would have been begun next. -/
theorem not_started_isPrefix_greetings :
    let t := (({} : Tree).load greetings).2
    ∃ b, t.branch? 1 = some b ∧
      ¬ (walk greeters t b {} { cancelAt := some 1 }).started.reverse <+:
        (walk greeters t b {} {}).started.reverse := by
  intro t
  have hstarted : (t.branch? 1).map (fun b =>
      ((walk greeters t b {} { cancelAt := some 1 }).started.reverse,
        (walk greeters t b {} {}).started.reverse)) =
      some ([1, 2, 1], [1, 2, 3, 1, 2, 3]) := by
    decide +kernel
  obtain ⟨b, hb, heq⟩ := Option.map_eq_some_iff.mp hstarted
  obtain ⟨hcut, hwhole⟩ := Prod.mk.inj heq
  refine ⟨b, hb, ?_⟩
  rw [hcut, hwhole]
  decide

end ContentTree.View
