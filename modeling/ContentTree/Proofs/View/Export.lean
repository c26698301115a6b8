import ContentTree.Proofs.Session.Reach
import ContentTree.Proofs.View.Record

/-!
# Exports

An export writes the full structure of a branch: it asks neither for the value of an expression nor
for the elements of a list, and so it does not depend on who would answer, nor on what names stand
for. What it leaves out are nodes that the principal cannot read or that do not belong on the kind
of page that is looked at, and whatever is below them, below texts and below elements without
content.

## Main definitions

* `Branch.exported`: the part of a branch that an export writes.
* `exportLines`: the lines that an export writes for such a part.
* `Tree.Exports`: whether a node is written by the export of a root.
* `Services.Uncancelled`: states in which a walk has not been cancelled.
* `Writes`: what a part of a walk writes in an export.

## Main results

* `Writes.node`: the export of a branch writes the lines of its exported part, and nothing else.
* `Branch.Shows.mem_exportedIds_iff`: which nodes the exported part has.
* `render_export`: an export does not depend on the viewer beyond what may be read.
-/

namespace ContentTree

open Relation

variable {shown : Node → Bool} {b : Branch} {t : Tree} {n : Node} {root x : NodeId}

/-! ### What an export writes -/

/-- Whether an export writes what is below a node: not for texts and elements without content. -/
def Kind.opens : Kind → Bool
  | .element tag _ => !Html.isVoid tag
  | .text .. => false
  | _ => true

namespace Branch

/-- The part of a branch that an export writes, given which nodes are shown at all. -/
def exported (shown : Node → Bool) : Branch → Option Branch
  | ⟨n, cs⟩ => if shown n then some ⟨n, if n.kind.opens then exportedAll cs else []⟩ else none
where
  exportedAll : List Branch → List Branch
    | [] => []
    | c :: cs => (exported shown c).toList ++ exportedAll cs

theorem exportedAll_eq (shown : Node → Bool) (cs : List Branch) :
    exported.exportedAll shown cs = cs.flatMap fun c => (c.exported shown).toList := by
  induction cs with
  | nil => rfl
  | cons c cs ih => rw [exported.exportedAll, ih, List.flatMap_cons]

/-- The identifiers that an export of a branch writes, in document order. -/
def exportedIds (shown : Node → Bool) (b : Branch) : List NodeId :=
  (b.exported shown).toList.flatMap ids

theorem exportedIds_mk (n : Node) (cs : List Branch) : exportedIds shown ⟨n, cs⟩ =
    if shown n then n.id :: if n.kind.opens then cs.flatMap (exportedIds shown) else []
    else [] := by
  rw [exportedIds, exported]
  split
  · rw [Option.toList_some, List.flatMap_singleton, ids_mk]
    split
    · rw [exportedAll_eq, List.flatMap_assoc]
      rfl
    · rfl
  · rfl

/-- An export keeps the order of the nodes. -/
theorem exportedIds_sublist (shown : Node → Bool) (b : Branch) :
    (b.exportedIds shown).Sublist b.ids := by
  induction b with
  | mk n cs ih =>
    have hcs : (cs.flatMap (exportedIds shown)).Sublist (cs.flatMap ids) := by
      induction cs with
      | nil => exact .slnil
      | cons c cs ihs =>
        rw [List.flatMap_cons, List.flatMap_cons]
        exact (ih c List.mem_cons_self).append (ihs fun d hd => ih d (List.mem_cons_of_mem _ hd))
    rw [exportedIds_mk, ids_mk]
    split
    · split
      · exact hcs.cons_cons _
      · exact (List.nil_sublist _).cons_cons _
    · exact List.nil_sublist _

end Branch

/-- A node is written by the export of `root`: it stands at or below the root and is shown, and
above it up to the root there are only nodes that are shown and below which there is something to
write. -/
structure Tree.Exports (t : Tree) (shown : Node → Bool) (root x : NodeId) : Prop where
  within : t.Within x root
  exists_shown : ∃ n, t.node? x = some n ∧ shown n = true
  above : ∀ a m, t.Below x a → t.Within a root → t.node? a = some m →
    shown m = true ∧ m.kind.opens = true

namespace Tree

theorem WellFormed.exports_root (ht : t.WellFormed) (hn : t.node? root = some n) :
    t.Exports shown root root ↔ shown n = true := by
  constructor
  · rintro ⟨-, ⟨m, hm, hshown⟩, -⟩
    exact Option.some.inj (hn.symm.trans hm) ▸ hshown
  · intro hshown
    refine ⟨.refl, ⟨n, hn, hshown⟩, fun a m hb hw => ?_⟩
    exact absurd (TransGen.trans_left hb hw) (ht.acyclic root)

/-- Below the root a node is written if it is by the export of the child of the root above it, and
if the root itself is written and opens. -/
theorem WellFormed.exports_child (ht : t.WellFormed) (hn : t.node? root = some n) {c : NodeId}
    (hc : t.Under c root) (hx : t.Within x c) : t.Exports shown root x ↔
      (shown n = true ∧ n.kind.opens = true) ∧ t.Exports shown c x := by
  constructor
  · rintro ⟨-, hshown, habove⟩
    exact ⟨habove root n (TransGen.tail' hx hc) .refl hn,
      hx, hshown, fun a m hb hw => habove a m hb (hw.tail hc)⟩
  · rintro ⟨hroot, -, hshown, habove⟩
    refine ⟨hx.tail hc, hshown, fun a m hb hw hm => ?_⟩
    -- Whatever stands above the node stands at or below the child, or it is the root.
    have hunique : Relator.RightUnique t.Under := fun _ _ _ h h' => h.eq h'
    rcases ReflTransGen.total_of_right_unique hunique hb.within hx with hac | hca
    · exact habove a m hb hac hm
    · rcases Within.eq_or_below hca with rfl | hca
      · exact habove _ m hb .refl hm
      · rcases (hca.of_under hc).eq_or_below with rfl | hra
        · exact Option.some.inj (hn.symm.trans hm) ▸ hroot
        · exact absurd (TransGen.trans_left hra hw) (ht.acyclic root)

end Tree

namespace Branch

/-- The exported part of a branch has exactly the nodes that the export of its root writes. -/
theorem Shows.mem_exportedIds_iff (ht : t.WellFormed) (hb : b.Shows t) :
    x ∈ b.exportedIds shown ↔ t.Exports shown b.id x := by
  induction b with
  | mk n cs ih =>
    have hn : t.node? n.id = some n := hb.node?
    rw [exportedIds_mk]
    -- A node of the branch is its root, or stands at or below a child of the root.
    constructor
    · intro hx
      split at hx
      case isFalse => simp at hx
      case isTrue hshown =>
        rcases List.mem_cons.mp hx with rfl | hx
        · exact (ht.exports_root hn).mpr hshown
        · split at hx
          case isFalse => simp at hx
          case isTrue hopens =>
            obtain ⟨c, hc, hx⟩ := List.mem_flatMap.mp hx
            have hx := (ih c hc (hb.of_mem_children hc)).mp hx
            have hunder : t.Under c.id n.id := hb.under_of_mem_children ht hc
            exact (ht.exports_child hn hunder hx.within).mpr ⟨⟨hshown, hopens⟩, hx⟩
    · intro hx
      rcases ReflTransGen.cases_tail_iff _ _ _ |>.mp hx.within with heq | ⟨child, hxc, hunder⟩
      · have heq : n.id = x := heq
        rw [← heq] at hx ⊢
        rw [if_pos ((ht.exports_root hn).mp hx)]
        exact List.mem_cons_self
      · obtain ⟨hroot, hx⟩ := (ht.exports_child hn hunder hxc).mp hx
        have hmem := ht.mem_children_iff.mpr hunder
        rw [hb.children] at hmem
        obtain ⟨c, hc, rfl⟩ := List.mem_map.mp hmem
        rw [if_pos hroot.1, if_pos hroot.2]
        exact List.mem_cons_of_mem _ (List.mem_flatMap.mpr
          ⟨c, hc, (ih c hc (hb.of_mem_children hc)).mpr hx⟩)

end Branch

namespace View

variable {σ α β : Type} {s : Services σ} {mode : EditMode} {depth : Nat} {c : Context} {e : σ}
  {P : σ → Prop}

/-- The attributes of an element in an export, where placeholders are left in them. -/
def exportedAttributes (mode : EditMode) (attrs : List (String × String)) :
    List (String × String) :=
  attrs.flatMap fun (name, raw) => (attribute? mode name raw).toList

/-- The directives of a node as a line, which only deployments have. -/
def commentLines (t : Tree) (mode : EditMode) (depth : Nat) (n : Node) : List Html.Line :=
  (if mode = .deployment then Directive.comment? (t.directives n.id) else none).toList.map
    fun comment => ⟨depth, .comment comment⟩

/-- The lines that an export writes for a node before those for the nodes below it. -/
def openingLines (t : Tree) (mode : EditMode) (depth : Nat) (n : Node) : List Html.Line :=
  match n.kind with
  | .page .. => [⟨depth, .doctype⟩]
  | .element tag attrs => commentLines t mode depth n ++
    [⟨depth, .startTag tag
      (exportedAttributes mode attrs.toList ++ metaAttributes mode n.properties)⟩]
  | .text text _ => commentLines t mode depth n ++ [⟨depth, .text text⟩]
  | .component _ => []
  | .fragment => []

/-- The lines that an export writes for a node after those for the nodes below it. -/
def closingLines (depth : Nat) (k : Kind) : List Html.Line :=
  match k with
  | .element tag _ => if Html.isVoid tag then [] else [⟨depth, .endTag tag⟩]
  | _ => []

/-- The depth of the lines below a node. -/
def depthBelow (depth : Nat) : Kind → Nat
  | .element .. => depth + 1
  | _ => depth

/-- The lines that an export writes for the exported part of a branch. -/
def exportLines (t : Tree) (mode : EditMode) (depth : Nat) : Branch → List Html.Line
  | ⟨n, cs⟩ =>
    openingLines t mode depth n ++ linesBelow (depthBelow depth n.kind) cs ++
      closingLines depth n.kind
where
  linesBelow (depth : Nat) : List Branch → List Html.Line
    | [] => []
    | c :: cs => exportLines t mode depth c ++ linesBelow depth cs

theorem linesBelow_eq (t : Tree) (mode : EditMode) (depth : Nat) (cs : List Branch) :
    exportLines.linesBelow t mode depth cs = cs.flatMap (exportLines t mode depth) := by
  induction cs with
  | nil => rfl
  | cons c cs ih => rw [exportLines.linesBelow, ih, List.flatMap_cons]

/-- The lines of the export of a branch. -/
def exportedLines (t : Tree) (mode : EditMode) (shown : Node → Bool) (depth : Nat) (b : Branch) :
    List Html.Line :=
  (b.exported shown).toList.flatMap (exportLines t mode depth)

theorem exportedLines_mk (t : Tree) (mode : EditMode) (n : Node) (cs : List Branch) :
    exportedLines t mode shown depth ⟨n, cs⟩ =
      if shown n then openingLines t mode depth n ++
        (if n.kind.opens then
          cs.flatMap (exportedLines t mode shown (depthBelow depth n.kind)) else []) ++
        closingLines depth n.kind
      else [] := by
  rw [exportedLines, Branch.exported]
  split
  · rw [Option.toList_some, List.flatMap_singleton, exportLines, linesBelow_eq]
    split
    · rw [Branch.exportedAll_eq, List.flatMap_assoc]
      rfl
    · rfl
  · rfl

/-- Whether a node is shown in an export: it can be read, and belongs on the kind of page that is
looked at. -/
def Context.shows (c : Context) (access : Access) (n : Node) : Bool :=
  access.canRead c.principal n && !isGated c n

/-- In these states a walk has not been cancelled, and to ask whether it has been leads to no other
states. -/
def Services.Uncancelled (s : Services σ) (P : σ → Prop) : Prop :=
  ∀ e, P e → (s.isCancelled.run e).1 = false ∧ P (s.isCancelled.run e).2

theorem Services.Uncancelled.recording (h : s.Uncancelled P) :
    s.recording.Uncancelled fun (e, calls) => P e ∧ calls = [] :=
  fun (e, _) ⟨he, hcalls⟩ => ⟨(h e he).1, (h e he).2, hcalls⟩

/-! ### What a walk writes -/

/-- A walk after further lines and nodes have been written, in a new state. -/
def Walk.wrote (w : Walk σ) (effects : σ) (lines : List Html.Line) (ids : List NodeId) : Walk σ :=
  { w with effects, lines := lines.reverse ++ w.lines, started := ids.reverse ++ w.started }

theorem Walk.wrote_wrote (w : Walk σ) (e e' : σ) (lines lines' : List Html.Line)
    (ids ids' : List NodeId) :
    (w.wrote e lines ids).wrote e' lines' ids' = w.wrote e' (lines ++ lines') (ids ++ ids') := by
  simp [Walk.wrote]

/-- In the context `c` and in certain states, a part of a walk gives a value and writes lines and
nodes. It does nothing else, and ends in such a state again. -/
def Writes (c : Context) (P : σ → Prop) (x : Walking σ α) (a : α) (lines : List Html.Line)
    (ids : List NodeId) : Prop :=
  ∀ w, w.context = c → P w.effects → w.aborted = false →
    ∃ e, P e ∧ x.run w = (a, w.wrote e lines ids)

namespace Writes

variable {a : α} {a' : β} {lines lines' : List Html.Line} {ids ids' : List NodeId}

theorem pure (a : α) : Writes c P (Pure.pure a) a [] [] :=
  fun w _ he _ => ⟨w.effects, he, rfl⟩

theorem of_eq {x : Walking σ α} (hx : Writes c P x a lines ids) (hlines : lines = lines')
    (hids : ids = ids') : Writes c P x a lines' ids' :=
  hlines ▸ hids ▸ hx

theorem bind {x : Walking σ α} {f : α → Walking σ β} (hx : Writes c P x a lines ids)
    (hf : Writes c P (f a) a' lines' ids') :
    Writes c P (x >>= f) a' (lines ++ lines') (ids ++ ids') := by
  intro w hc he ha
  obtain ⟨e₁, he₁, hx⟩ := hx w hc he ha
  obtain ⟨e₂, he₂, hf⟩ := hf (w.wrote e₁ lines ids) hc he₁ ha
  refine ⟨e₂, he₂, ?_⟩
  change (f (x.run w).1).run (x.run w).2 = _
  rw [hx]
  exact hf.trans (by rw [Walk.wrote_wrote])

theorem get_bind {f : Walk σ → Walking σ α}
    (hf : ∀ w, w.context = c → Writes c P (f w) a lines ids) :
    Writes c P (get >>= f) a lines ids :=
  fun w hc he ha => hf w hc w hc he ha

theorem perform {act : Context → StateM σ α} (hact : ∀ e, (act c).run e = (a, e)) :
    Writes c P (Walking.perform act) a [] [] := by
  rintro w rfl he -
  refine ⟨w.effects, he, ?_⟩
  rw [run_perform, hact]
  rfl

theorem emit (depth : Nat) (piece : Html.Piece) :
    Writes c P (Walking.emit depth piece) () [⟨depth, piece⟩] [] :=
  fun w _ he _ => ⟨w.effects, he, rfl⟩

theorem start (id : NodeId) : Writes c P (Walking.start id) () [] [id] :=
  fun w _ he _ => ⟨w.effects, he, rfl⟩

theorem emitComment (t : Tree) (mode : EditMode) (depth : Nat) (n : Node) :
    Writes c P (emitComment t mode depth n) () (commentLines t mode depth n) [] := by
  unfold View.emitComment commentLines
  split
  next h => rw [h]; exact emit _ _
  next h => rw [h]; exact pure _

section Mode

variable (hmode : mode.isExport = true)
include hmode

theorem attributes (attrs : List (String × String)) :
    Writes c P (attributes s mode n attrs) (exportedAttributes mode attrs) [] [] := by
  induction attrs with
  | nil => exact pure _
  | cons a attrs ih =>
    unfold View.attributes
    rw [if_pos hmode]
    exact (pure _).bind (ih.bind (pure _))

theorem textOf (content : String) : Writes c P (textOf s mode n content) content [] [] := by
  rw [View.textOf, if_pos hmode]
  exact pure _

end Mode

/-- The content of a node is the lines for the node itself, around those for the nodes below it
where it opens. No filter hides it. -/
theorem content (hmode : mode.isExport = true) (hc : c.mode.isExport = true)
    {below : Nat → Walking σ Unit}
    (hbelow : Writes c P (below (depthBelow depth n.kind)) () lines ids) :
    Writes c P (content s t mode n depth below) ()
      (openingLines t mode depth n ++ (if n.kind.opens then lines else []) ++
        closingLines depth n.kind)
      (n.id :: if n.kind.opens then ids else []) := by
  -- Neither the locale nor a condition filters anything in an export.
  have hmeets : Writes c P (Walking.perform fun c => meetsConditions s.evaluate c n) true [] [] :=
    perform fun e => by rw [meetsConditions, if_pos hc]; rfl
  refine get_bind fun w hw => ?_
  rw [hw, showsForLocale, hc, Bool.true_or, Bool.not_true, if_neg (by simp)]
  refine (hmeets.bind ?_).of_eq (List.nil_append _) (List.nil_append _)
  rw [Bool.not_true, if_neg (by simp)]
  refine of_eq ((start n.id).bind ?_) (List.nil_append _) List.singleton_append
  cases hkind : n.kind with
  | page =>
    simp only [openingLines, closingLines, depthBelow, Kind.opens, hkind] at hbelow ⊢
    exact ((emit depth .doctype).bind hbelow).of_eq (by simp) (by simp)
  | element tag attrs =>
    have hstart := fun attributes => emit (c := c) (P := P) depth (.startTag tag attributes)
    cases hvoid : Html.isVoid tag with
    | true =>
      simp only [openingLines, closingLines, depthBelow, Kind.opens, hkind, hvoid] at hbelow ⊢
      exact ((emitComment t mode depth n).bind ((attributes hmode attrs.toList).bind
        ((hstart _).bind (pure _)))).of_eq (by simp) (by simp)
    | false =>
      simp only [openingLines, closingLines, depthBelow, Kind.opens, hkind, hvoid] at hbelow ⊢
      exact ((emitComment t mode depth n).bind ((attributes hmode attrs.toList).bind
        ((hstart _).bind (hbelow.bind (emit depth _))))).of_eq (by simp) (by simp)
  | text text _ =>
    simp only [openingLines, closingLines, depthBelow, Kind.opens, hkind] at hbelow ⊢
    exact ((emitComment t mode depth n).bind ((textOf hmode text).bind (emit depth _))).of_eq
      (by simp) (by simp)
  | component =>
    simp only [openingLines, closingLines, depthBelow, Kind.opens, hkind] at hbelow ⊢
    exact hbelow.of_eq (by simp) (by simp)
  | fragment =>
    simp only [openingLines, closingLines, depthBelow, Kind.opens, hkind] at hbelow ⊢
    exact hbelow.of_eq (by simp) (by simp)

theorem enter (hrun : s.Uncancelled P) {x : Walking σ Unit} (hx : Writes c P x () lines ids) :
    Writes c P (enter s n x) () (if c.shows s.access n then lines else [])
      (if c.shows s.access n then ids else []) := by
  rintro w rfl he ha
  obtain ⟨hno, hkept⟩ := hrun _ he
  rw [enter_of_running ha (Prod.ext hno rfl), Context.shows]
  split
  · exact hx _ rfl hkept ha
  · exact ⟨_, hkept, rfl⟩

/-- The export of a branch writes the lines and the nodes of its exported part. It leaves the
context as it is, and the state but for what it is to ask about a cancellation. -/
theorem node (hmode : mode.isExport = true) (hc : c.mode.isExport = true)
    (hrun : s.Uncancelled P) (b : Branch) :
    Writes c P (node s t mode depth b) () (exportedLines t mode (c.shows s.access) depth b)
      (b.exportedIds (c.shows s.access)) := by
  -- The depth varies on the way down.
  induction b generalizing depth with
  | mk n cs ih =>
    have hbelow : ∀ depth, ∀ cs' ⊆ cs, Writes c P (node.nodes s t mode depth cs') ()
        (cs'.flatMap (exportedLines t mode (c.shows s.access) depth))
        (cs'.flatMap (Branch.exportedIds (c.shows s.access))) := by
      intro depth cs' hsub
      induction cs' with
      | nil => exact pure _
      | cons child cs' ihs =>
        rw [List.cons_subset] at hsub
        rw [node.nodes, List.flatMap_cons, List.flatMap_cons]
        exact (ih child hsub.1).bind (ihs hsub.2)
    rw [View.node, listed, if_pos hmode, exportedLines_mk, Branch.exportedIds_mk]
    exact enter hrun (content hmode hc (hbelow _ cs (List.Subset.refl cs)))

end Writes

/-- The page that an export writes for a branch. -/
def exportedPage (settings : Settings) (t : Tree) (mode : EditMode) (shown : Node → Bool)
    (b : Branch) : Output where
  html := Html.write settings.indentHtml (exportedLines t mode shown 0 b)
  aborted := false
  nodesRendered := (b.exportedIds shown).length

theorem walk_eq_wrote (hc : c.mode.isExport = true) (hrun : s.Uncancelled P) (he : P e)
    (b : Branch) :
    ∃ e', P e' ∧ walk s t b c e = ({ effects := e, context := c } : Walk σ).wrote e'
      (exportedLines t c.mode (c.shows s.access) 0 b) (b.exportedIds (c.shows s.access)) := by
  have hnode : Writes c P (node s t c.mode 0 b) () _ _ := Writes.node hc hc hrun b
  obtain ⟨e', he', hwritten⟩ := hnode { effects := e, context := c } rfl he rfl
  exact ⟨e', he', congrArg Prod.snd hwritten⟩

theorem render_eq_exportedPage (hb : t.branch? root = some b) (settings : Settings)
    (hc : c.mode.isExport = true) (hrun : s.Uncancelled P) (he : P e) :
    ∃ e', P e' ∧ render s settings t root c e =
      .ok (exportedPage settings t c.mode (c.shows s.access) b, c, e') := by
  obtain ⟨e', he', hwalk⟩ := walk_eq_wrote (t := t) hc hrun he b
  refine ⟨e', he', ?_⟩
  rw [render, hb]
  dsimp only
  rw [hwalk]
  simp [Walk.output, Walk.wrote, exportedPage]

/-- An export writes the full structure and nothing else. It comes out the same for any two viewers
who may read the same, whatever names stand for and whoever answers questions, and no question is
asked. What is written are the nodes that may be read and belong on the kind of page that is looked
at, and above which there are only such nodes, none of them a text or an element without content:
each of them once and in document order. A pass counts as uncancelled as long as it stays among
states in which it has not been cancelled. -/
theorem render_export (ht : t.WellFormed) (hn : t.node? root = some n) {τ : Type}
    (s : Services σ) (s' : Services τ) (haccess : s'.access = s.access) (settings : Settings)
    (c c' : Context) (hc : c.mode.isExport = true) (hmode : c'.mode = c.mode)
    (hprincipal : c'.principal = c.principal) (hdetails : c'.details.isSome = c.details.isSome)
    {P : σ → Prop} {Q : τ → Prop} (hrun : s.Uncancelled P) (hrun' : s'.Uncancelled Q) {e : σ}
    {e' : τ} (he : P e) (he' : Q e') :
    ∃ b, t.branch? root = some b ∧
      let output := exportedPage settings t c.mode (c.shows s.access) b
      let written := (walk s t b c e).started.reverse
      (∃ e₁, P e₁ ∧ render s settings t root c e = .ok (output, c, e₁) ∧
        render s.recording settings t root c (e, []) = .ok (output, c, e₁, [])) ∧
      (∃ e₁, Q e₁ ∧ render s' settings t root c' e' = .ok (output, c', e₁)) ∧
      output.nodesRendered = written.length ∧ written.Sublist b.ids ∧ written.Nodup ∧
      ∀ x, x ∈ written ↔ t.Exports (c.shows s.access) root x := by
  obtain ⟨b, hb, -, hshows⟩ := ht.exists_branch hn
  obtain ⟨rfl, -⟩ := ht.branch?_eq_some_iff.mp hb
  have hshown : c'.shows s'.access = c.shows s.access := by
    funext n
    rw [Context.shows, Context.shows, isGated, isGated, haccess, hprincipal, hdetails]
  have hwritten : (walk s t b c e).started.reverse = b.exportedIds (c.shows s.access) := by
    obtain ⟨e₁, -, hwalk⟩ := walk_eq_wrote (t := t) hc hrun he b
    simp [hwalk, Walk.wrote]
  have hother := render_eq_exportedPage (s := s') hb settings (hmode ▸ hc) hrun' he'
  rw [hmode, hshown] at hother
  refine ⟨b, hb, ?_, hother, ?_⟩
  · -- The record stays empty, and without it the pass is the same.
    obtain ⟨⟨e₁, _⟩, ⟨he₁, rfl⟩, hrecorded⟩ :=
      render_eq_exportedPage hb settings hc hrun.recording (e := (e, [])) ⟨he, rfl⟩
    refine ⟨e₁, he₁, ?_, hrecorded⟩
    rw [render_recording s settings t b.id c e [], hrecorded]
    rfl
  · rw [hwritten]
    exact ⟨rfl, b.exportedIds_sublist _, (hshows.nodup_ids ht).sublist (b.exportedIds_sublist _),
      fun x => hshows.mem_exportedIds_iff ht⟩

/-- A page with a list for another language, an element without content that has a text in it all
the same, a paragraph for detail pages and one that is for nobody. -/
def sampler : Snapshot :=
  let users : Properties := { visibleToUsers := true }
  .mk (some 1) { kind := .page "home" 0 false, properties := users } none
    [.mk (some 2)
      { kind := .element "ul" ∅
        properties := { users with dataKey := some "item", hideForLocales := some "en" } } none
      [.mk (some 3) { kind := .text "$\x7bitem\x7d" none, properties := users } none []],
    .mk (some 4) { kind := .element "br" ∅, properties := users } none
      [.mk (some 5) { kind := .text "break" none, properties := users } none []],
    .mk (some 6) { kind := .element "p" ∅, properties := { users with hideOnIndex := true } } none
      [.mk (some 7) { kind := .text "details" none, properties := users } none []],
    .mk (some 8) { kind := .element "p" ∅ } none []]

/-- The export is the same in two languages, with different objects and different services. -/
theorem render_export_sampler :
    let t := (({} : Tree).load sampler).2
    let s : Services Unit := ⟨.byGrants, fun _ _ _ => return .ok .null, [], return false⟩
    let s' := Pass.services .byGrants (Source.standard (Fixtures.backend {}) Pass.evaluate "nodeId")
    let c : Context := { principal := .user "ada" false, requestedMode := .raw }
    let c' : Context := { c with locale := "de", current := some (.string "other") }
    (∃ output, render s {} t 1 c () = .ok (output, c, ()) ∧
      render s' {} t 1 c' {} = .ok (output, c', {}) ∧ output.nodesRendered = 4) ∧
      t.Exports (c.shows .byGrants) 1 4 ∧ ¬ t.Exports (c.shows .byGrants) 1 5 := by
  intro t s s' c c'
  have ht : t.Reachable .successful := .load .empty sampler ⟨1, by decide⟩
  have hwritten : (t.branch? 1).map (fun b => (walk s t b c ()).started.reverse) =
      some [1, 2, 3, 4] := by
    decide +kernel
  have hroot : t.node? 1 = some _ := rfl
  obtain ⟨b, hb, ⟨_, -, hpage, -⟩, ⟨_, rfl, hpage'⟩, hcount, -, -, hmem⟩ :=
    render_export ht.sound.toWellFormed hroot s s' rfl {} c c' rfl rfl rfl rfl
      (P := fun _ => True) (Q := fun p => p = {}) (fun _ _ => ⟨rfl, trivial⟩)
      (fun _ h => ⟨h ▸ rfl, h⟩) trivial rfl
  rw [hb] at hwritten
  have hstarted : (walk s t b c ()).started.reverse = [1, 2, 3, 4] := Option.some.inj hwritten
  rw [hstarted] at hcount hmem
  exact ⟨⟨_, hpage, hpage', hcount⟩, (hmem 4).mp (by simp), fun h => by simpa using (hmem 5).mpr h⟩

end View

end ContentTree
