import ContentTree.Proofs.Html.Nested
import ContentTree.Proofs.View.Content
import ContentTree.Proofs.View.Scope

/-!
# Pages for visitors are well nested

What is written for visitors is well nested and escaped, wherever the walk is cut short, and
whatever the services answer. Its tags are those of elements of the tree. Only a page with a list
says more than once of which type the document is, once for every element.

## Main definitions

* `Kind.IsPlain`: kinds whose tags and names of attributes need no escaping.
* `Puts`: a part of a walk writes parts of a page that fit together in some way.
* `Branch.Permits`: parts of a page that may be written for a branch inside of other elements.
* `Branch.IsPage`: the same for a branch that is a whole page.

## Main results

* `Puts.node`: what is written for a branch below a page.
* `Puts.page`: what is written for a page.
* `render_nested`: a page is well nested and escaped.
-/

namespace ContentTree

open Html (Piece Line Closed WellNested IsTag IsAttributeName)

/-- Tags and names of attributes that need no escaping. -/
def Kind.IsPlain : Kind → Prop
  | .element tag attrs => IsTag tag ∧ ∀ a ∈ attrs.toList, IsAttributeName a.1
  | _ => True

instance : (k : Kind) → Decidable k.IsPlain
  | .element tag attrs =>
    inferInstanceAs (Decidable (IsTag tag ∧ ∀ a ∈ attrs.toList, IsAttributeName a.1))
  | .page .. | .text .. | .component _ | .fragment => .isTrue trivial

/-! ### Parts of pages -/

namespace Branch

variable {t : Tree} {b c : Branch} {mode : EditMode} {ps qs : List Piece} {ids ids' : List NodeId}

/-- A start tag is that of an element of the branch, and so are its attributes. -/
def Owns (b : Branch) : Piece → Prop
  | .startTag tag attributes => ∃ n ∈ b.nodes, ∃ raws, n.kind = .element tag raws ∧
      ∀ a ∈ attributes, ∃ raw, (a.1, raw) ∈ raws.toList
  | _ => True

/-- The parts of a page that may be written for a branch inside of other elements, where the
contents of some nodes are begun: they are closed and escaped, their tags are those of elements of
the branch, and the nodes are no pages. -/
structure Permits (t : Tree) (b : Branch) (ps : List Piece) (begun : List NodeId) : Prop where
  closed : Closed ps
  pieces : ∀ p ∈ ps, p.IsProper ∧ b.Owns p
  begun : ∀ id ∈ begun, ∃ n, t.node? id = some n ∧ n.kind.isPage = false

/-- The parts of a whole page for a branch, where the contents of some nodes are begun. There is a
document type each time the content of a page is begun: only at the beginning, unless the page has a
list. -/
structure IsPage (b : Branch) (mode : EditMode) (ps : List Piece) (begun : List NodeId) : Prop where
  nested : WellNested ps
  pieces : ∀ p ∈ ps, p = .doctype ∨ p.IsProper ∧ b.Owns p
  doctype : .doctype ∈ ps → b.node.kind.isPage = true ∧ ps.head? = some .doctype
  another : .doctype ∈ ps.tail → (View.listKey? mode b.node).isSome = true
  count : b.node.kind.isPage = true → ps.count .doctype = begun.count b.id

/-- The parts of pages with a document type each, one after the other. -/
structure ArePages (b : Branch) (mode : EditMode) (ps : List Piece) (begun : List NodeId) : Prop
    extends b.IsPage mode ps begun where
  head : ∀ p ∈ ps.head?, p = .doctype

/-- A page stands below nothing. -/
theorem Shows.not_page_of_mem_children (ht : t.WellFormed) (hb : b.Shows t) (hc : c ∈ b.children) :
    c.node.kind.isPage = false :=
  ht.not_page_of_under (hb.under_of_mem_children ht hc) (hb.of_mem_children hc).node?

theorem Owns.of_child {p : Piece} (h : c.Owns p) (hc : c ∈ b.children) : b.Owns p := by
  cases p with
  | startTag tag attributes =>
    obtain ⟨n, hn, hraws⟩ := h
    have hinner : n ∈ b.inner := mem_allNodes.mpr ⟨c, hc, hn⟩
    exact ⟨n, b.mem_nodes_of_mem_inner hinner, hraws⟩
  | _ => trivial

namespace Permits

theorem nil : Permits t b [] [] :=
  ⟨.nil, by simp, by simp⟩

theorem append (hp : Permits t b ps ids) (hq : Permits t b qs ids') :
    Permits t b (ps ++ qs) (ids ++ ids') :=
  ⟨hp.closed.append hq.closed, List.forall_mem_append.mpr ⟨hp.pieces, hq.pieces⟩,
    List.forall_mem_append.mpr ⟨hp.begun, hq.begun⟩⟩

theorem text {s : String} (h : (Piece.text s).IsProper) : Permits t b [.text s] [] :=
  ⟨.text s, by simpa [Owns] using h, by simp⟩

theorem of_child (hp : Permits t c ps ids) (hc : c ∈ b.children) : Permits t b ps ids :=
  ⟨hp.closed, fun p hmem => (hp.pieces p hmem).imp_right fun h => h.of_child hc, hp.begun⟩

theorem begin_node (hp : Permits t b ps ids) (hb : t.node? b.id = some b.node)
    (hpage : b.node.kind.isPage = false) : Permits t b ps (b.id :: ids) :=
  ⟨hp.closed, hp.pieces, List.forall_mem_cons.mpr ⟨⟨b.node, hb, hpage⟩, hp.begun⟩⟩

theorem void {tag : String} {attributes : List (String × String)} (hvoid : Html.isVoid tag = true)
    (h : (Piece.startTag tag attributes).IsProper ∧ b.Owns (.startTag tag attributes)) :
    Permits t b [.startTag tag attributes] [] :=
  ⟨.void hvoid attributes, by simpa using h, by simp⟩

theorem element {tag : String} {attributes : List (String × String)}
    (hvoid : ¬ Html.isVoid tag = true)
    (h : (Piece.startTag tag attributes).IsProper ∧ b.Owns (.startTag tag attributes))
    (hp : Permits t b ps ids) :
    Permits t b (.startTag tag attributes :: (ps ++ [.endTag tag])) ids := by
  refine ⟨.element hvoid attributes hp.closed, ?_, hp.begun⟩
  rw [List.forall_mem_cons, List.forall_mem_append, List.forall_mem_singleton]
  exact ⟨h, hp.pieces, h.1.1, trivial⟩

theorem doctype_notMem (hp : Permits t b ps ids) : .doctype ∉ ps :=
  fun h => (hp.pieces _ h).1

/-- Where the root is not a page, there is no document type. -/
theorem isPage (hp : Permits t b ps ids) (hpage : b.node.kind.isPage = false) :
    b.IsPage mode ps ids where
  nested := hp.closed.wellNested
  pieces p h := .inr (hp.pieces p h)
  doctype h := absurd h hp.doctype_notMem
  another h := absurd (List.mem_of_mem_tail h) hp.doctype_notMem
  count h := absurd (h.symm.trans hpage) nofun

/-- A page begins with a document type. -/
theorem arePages (hp : Permits t b ps ids) (hb : t.node? b.id = some b.node)
    (hpage : b.node.kind.isPage = true) :
    b.ArePages mode (.doctype :: ps) (b.id :: ids) where
  nested := hp.closed.wellNested_cons_doctype
  pieces := List.forall_mem_cons.mpr ⟨.inl rfl, fun p h => .inr (hp.pieces p h)⟩
  doctype _ := ⟨hpage, rfl⟩
  another h := absurd h hp.doctype_notMem
  count _ := by
    have hid : b.id ∉ ids := by
      intro hmem
      obtain ⟨n, hn, hkind⟩ := hp.begun _ hmem
      rw [Option.some.inj (hb.symm.trans hn)] at hpage
      exact absurd (hpage.symm.trans hkind) nofun
    rw [List.count_cons_self, List.count_cons_self, List.count_eq_zero.mpr hp.doctype_notMem,
      List.count_eq_zero.mpr hid]
  head _ h := (Option.some.inj h).symm

end Permits

namespace ArePages

theorem nil : b.ArePages mode [] [] :=
  ⟨⟨Closed.nil.wellNested, by simp, by simp, by simp, by simp⟩, by simp⟩

/-- Where a page has a list, there is a page for every element. -/
theorem append (hp : b.ArePages mode ps ids) (hq : b.ArePages mode qs ids')
    (hpage : b.node.kind.isPage = true) (hkey : (View.listKey? mode b.node).isSome = true) :
    b.ArePages mode (ps ++ qs) (ids ++ ids') where
  nested := hp.nested.append hq.nested
  pieces := List.forall_mem_append.mpr ⟨hp.pieces, hq.pieces⟩
  doctype h := by
    refine ⟨hpage, ?_⟩
    cases ps with
    | nil => exact (hq.doctype h).2
    | cons p ps => exact congrArg some (hp.head p rfl)
  another _ := hkey
  count _ := by
    rw [List.count_append, List.count_append, hp.count hpage, hq.count hpage]
  head := by
    cases ps with
    | nil => exact hq.head
    | cons p ps => exact hp.head

end ArePages

end Branch

namespace View

variable {σ α β : Type} {s : Services σ} {t : Tree} {mode : EditMode} {n : Node} {depth : Nat}
  {key : String} {b : Branch}

/-- A part of a walk writes parts of a page and begins the contents of nodes, which fit together in
some way. -/
def Puts (R : List Piece → List NodeId → Prop) (x : Walking σ α) : Prop :=
  ∀ w, ∃ (new : List Line) (begun : List NodeId), (x.run w).2.lines = new.reverse ++ w.lines ∧
    (x.run w).2.started = begun.reverse ++ w.started ∧ R (new.map Line.piece) begun

/-- Only these parts are written, and nothing is begun. -/
def Only (ps₀ ps : List Piece) (begun : List NodeId) : Prop :=
  ps = ps₀ ∧ begun = []

namespace Puts

variable {R R' R'' : List Piece → List NodeId → Prop} {x : Walking σ α} {f : α → Walking σ β}

theorem mono (hx : Puts R x) (h : ∀ ps begun, R ps begun → R' ps begun) : Puts R' x := by
  intro w
  obtain ⟨new, begun, hlines, hstarted, hnew⟩ := hx w
  exact ⟨new, begun, hlines, hstarted, h _ _ hnew⟩

theorem bind (hx : Puts R x) (hf : ∀ w, Puts R' (f (x.run w).1))
    (h : ∀ ps qs ids ids', R ps ids → R' qs ids' → R'' (ps ++ qs) (ids ++ ids')) :
    Puts R'' (x >>= f) := by
  intro w
  obtain ⟨new, begun, hlines, hstarted, hnew⟩ := hx w
  obtain ⟨new', begun', hlines', hstarted', hnew'⟩ := hf w (x.run w).2
  refine ⟨new ++ new', begun ++ begun', ?_, ?_, by simpa using h _ _ _ _ hnew hnew'⟩
  · rw [List.reverse_append, List.append_assoc, ← hlines]
    exact hlines'
  · rw [List.reverse_append, List.append_assoc, ← hstarted]
    exact hstarted'

theorem of_quiet (hx : Quiet x) (h : R [] []) : Puts R x :=
  fun w => ⟨[], [], hx.lines w, hx.started w, h⟩

theorem quiet_bind (hx : Quiet x) (hf : ∀ w, Puts R (f (x.run w).1)) : Puts R (x >>= f) := by
  refine bind (of_quiet (R := Only []) hx ⟨rfl, rfl⟩) hf ?_
  rintro _ qs _ ids' ⟨rfl, rfl⟩ hqs
  exact hqs

theorem start_bind {id : NodeId} {f : Unit → Walking σ β}
    (hf : Puts (fun ps begun => R ps (id :: begun)) (f ())) :
    Puts R (Walking.start id >>= f) := by
  intro w
  obtain ⟨new, begun, hlines, hstarted, hnew⟩ := hf { w with started := id :: w.started }
  refine ⟨new, id :: begun, hlines, ?_, hnew⟩
  rw [List.reverse_cons, List.append_assoc]
  exact hstarted

theorem emit (depth : Nat) (piece : Piece) :
    Puts (Only [piece]) (Walking.emit depth piece : Walking σ Unit) :=
  fun _ => ⟨[⟨depth, piece⟩], [], rfl, rfl, rfl, rfl⟩

/-! ### Nodes -/

theorem content {below : Nat → Walking σ Unit} (hnil : R [] [])
    (hbody : Puts (fun ps begun => R ps (n.id :: begun)) (body s t mode n depth below)) :
    Puts R (content s t mode n depth below) := by
  rw [content_eq_body]
  refine quiet_bind .get fun w => ?_
  split
  · exact of_quiet (.pure _) hnil
  · refine quiet_bind (.perform _) fun w => ?_
    split
    · exact of_quiet (.pure _) hnil
    · exact start_bind hbody

theorem enter {x : Walking σ Unit} (hnil : R [] []) (hx : Puts R x) : Puts R (enter s n x) := by
  refine quiet_bind .get fun w => ?_
  split
  · exact of_quiet (.pure _) hnil
  · refine quiet_bind (.perform _) fun w => ?_
    split
    · exact fun _ => ⟨[], [], rfl, rfl, hnil⟩
    · refine quiet_bind .get fun w => ?_
      dsimp only
      split
      · exact hx
      · exact of_quiet (.pure _) hnil

theorem listed_of_none (hkey : listKey? mode n = none) {write : Walking σ Unit}
    (hwrite : Puts R write) : Puts R (listed s mode n write) := by
  unfold View.listed
  rw [← listKey?, hkey]
  exact hwrite

section Lists

variable {write : Walking σ Unit} (hnil : R [] [])
  (happend : ∀ ps qs ids ids', R ps ids → R qs ids' → R (ps ++ qs) (ids ++ ids'))
  (hwrite : Puts R write)
include hnil happend hwrite

theorem eachElement (vs : List Value) : Puts R (eachElement key write vs) := by
  induction vs with
  | nil => exact of_quiet (.pure _) hnil
  | cons v vs ih =>
    exact quiet_bind (.withContext _) fun _ => hwrite.bind (fun _ => ih) happend

theorem listed : Puts R (listed s mode n write) := by
  unfold View.listed
  split
  · refine quiet_bind .elements fun w => quiet_bind .get fun w => ?_
    refine (eachElement hnil happend hwrite _).bind
      (fun _ => of_quiet (R := Only []) (.withContext _) ⟨rfl, rfl⟩) ?_
    rintro ps _ ids _ hps ⟨rfl, rfl⟩
    rwa [List.append_nil, List.append_nil]
  · exact hwrite

end Lists

end Puts

/-! ### Visitors -/

section Visitors

variable (hmode : mode.isExport = false)
include hmode

theorem emitComment_of_not_export :
    emitComment t mode depth n = (Pure.pure () : Walking σ Unit) := by
  cases mode with
  | normal | detail => rfl
  | raw | widget | deployment => exact nomatch hmode

theorem metaAttributes_of_not_export (p : Properties) : metaAttributes mode p = [] := by
  simp [metaAttributes, hmode]

theorem mem_attribute? {name value : String} {a : String × String}
    (ha : a ∈ attribute? mode name value) :
    a.1 = name ∧ ∀ c ∈ ['<', '>', '"', '\''], c ∉ a.2.toList := by
  have hescapes : mode.escapes = true := by
    cases mode with
    | normal | detail => rfl
    | raw | widget | deployment => exact nomatch hmode
  rw [attribute?, hescapes] at ha
  split at ha
  · exact nomatch ha
  · cases ha
    exact ⟨rfl, fun c hc => Html.notMem_escapeAttribute hc value⟩

/-- The attributes of an element are written under their names, with escaped values. -/
theorem mem_attributes {attrs : List (String × String)} {a : String × String} (w : Walk σ)
    (ha : a ∈ ((attributes s mode n attrs).run w).1) :
    (∃ raw, (a.1, raw) ∈ attrs) ∧ ∀ c ∈ ['<', '>', '"', '\''], c ∉ a.2.toList := by
  induction attrs generalizing w with
  | nil => exact nomatch ha
  | cons attr attrs ih =>
    obtain ⟨name, raw⟩ := attr
    obtain ⟨value, w', hvalue⟩ : ∃ value w',
        ((attributes s mode n ((name, raw) :: attrs)).run w).1 =
          (attribute? mode name value).toList ++ ((attributes s mode n attrs).run w').1 := by
      rw [attributes]
      split <;> exact ⟨_, _, rfl⟩
    rw [hvalue, List.mem_append, Option.mem_toList] at ha
    rcases ha with ha | ha
    · obtain ⟨rfl, hescaped⟩ := mem_attribute? hmode ha
      exact ⟨⟨raw, List.mem_cons_self⟩, hescaped⟩
    · obtain ⟨⟨raw', hraw⟩, hescaped⟩ := ih w' ha
      exact ⟨⟨raw', List.mem_cons_of_mem _ hraw⟩, hescaped⟩

/-- What is written in place of a text is escaped. -/
theorem textOf_isProper (content : String) (w : Walk σ) :
    (Piece.text ((textOf s mode n content).run w).1).IsProper := by
  rw [textOf, hmode]
  exact Html.isProper_escapeText _

namespace Puts

/-- What is written for a node other than a page, around what is written below it. -/
theorem body {below : Nat → Walking σ Unit} (hplain : b.node.kind.IsPlain)
    (hpage : b.node.kind.isPage = false) (hbelow : ∀ depth, Puts (b.Permits t) (below depth)) :
    Puts (b.Permits t) (body s t mode b.node depth below) := by
  unfold View.body
  split
  case h_1 hkind => rw [hkind] at hpage; exact nomatch hpage
  case h_2 tag raws hkind =>
    rw [hkind] at hplain
    rw [emitComment_of_not_export hmode, metaAttributes_of_not_export hmode]
    refine quiet_bind (.pure _) fun _ => quiet_bind (.attributes _) fun w => ?_
    rw [List.append_nil]
    have hstart : (Piece.startTag tag ((attributes s mode b.node raws.toList).run w).1).IsProper ∧
        b.Owns (.startTag tag ((attributes s mode b.node raws.toList).run w).1) := by
      refine ⟨⟨hplain.1, fun a ha => ?_⟩, b.node, b.node_mem_nodes, raws, hkind, fun a ha => ?_⟩
      · obtain ⟨⟨raw, hraw⟩, hescaped⟩ := mem_attributes hmode w ha
        exact ⟨hplain.2 (a.1, raw) hraw, hescaped⟩
      · exact (mem_attributes hmode w ha).1
    by_cases hvoid : Html.isVoid tag = true
    · refine (emit _ _).bind (fun _ => of_quiet (R := Only []) ?_ ⟨rfl, rfl⟩) ?_
      · simp only [hvoid]
        exact .pure _
      · rintro _ _ _ _ ⟨rfl, rfl⟩ ⟨rfl, rfl⟩
        exact .void hvoid hstart
    · have hinside : Puts (fun ps begun => ∃ qs, b.Permits t qs begun ∧ ps = qs ++ [.endTag tag])
          (do below (depth + 1); Walking.emit depth (.endTag tag)) := by
        refine (hbelow _).bind (fun _ => emit _ _) ?_
        rintro qs _ ids _ hqs ⟨rfl, rfl⟩
        exact ⟨qs, (List.append_nil ids).symm ▸ hqs, rfl⟩
      rw [if_pos (by simpa using hvoid)]
      refine (emit _ _).bind (fun _ => hinside) ?_
      rintro _ _ _ _ ⟨rfl, rfl⟩ ⟨qs, hqs, rfl⟩
      exact .element hvoid hstart hqs
  case h_3 text _ _ =>
    rw [emitComment_of_not_export hmode]
    refine quiet_bind (.pure _) fun _ => quiet_bind (.textOf _) fun w => (emit _ _).mono ?_
    rintro _ _ ⟨rfl, rfl⟩
    exact .text (textOf_isProper hmode text w)
  case h_4 => exact hbelow depth
  case h_5 => exact hbelow depth

omit hmode in
/-- What is written for a page, before what is written below it: its document type. -/
theorem page_body {below : Nat → Walking σ Unit} (hpage : b.node.kind.isPage = true)
    (hbelow : ∀ depth, Puts (b.Permits t) (below depth)) :
    Puts (fun ps begun => ∃ qs, ps = .doctype :: qs ∧ b.Permits t qs begun)
      (View.body s t mode b.node depth below) := by
  unfold View.body
  split
  case h_1 =>
    refine (emit _ _).bind (fun _ => hbelow depth) ?_
    rintro _ qs _ ids ⟨rfl, rfl⟩ hqs
    exact ⟨qs, rfl, hqs⟩
  all_goals next hkind => rw [hkind] at hpage; exact nomatch hpage

omit hmode in
theorem nodes {cs : List Branch}
    (h : ∀ c ∈ cs, c ∈ b.children ∧ Puts (c.Permits t) (View.node s t mode depth c)) :
    Puts (b.Permits t) (node.nodes s t mode depth cs) := by
  induction cs with
  | nil => exact of_quiet (.pure _) .nil
  | cons c cs ih =>
    rw [List.forall_mem_cons] at h
    rw [node.nodes]
    exact (h.1.2.mono fun _ _ hps => hps.of_child h.1.1).bind (fun _ => ih h.2)
      fun _ _ _ _ => .append

/-- What is written for a branch below a page is closed and escaped. -/
theorem node (ht : t.WellFormed) (hplain : ∀ {id m}, t.node? id = some m → m.kind.IsPlain)
    (hb : b.Shows t) (hpage : b.node.kind.isPage = false) :
    Puts (b.Permits t) (View.node s t mode depth b) := by
  -- The depth varies on the way down.
  induction b generalizing depth with
  | mk n cs ih =>
    have hnodes : ∀ depth, Puts ((Branch.mk n cs).Permits t) (node.nodes s t mode depth cs) :=
      fun _ => nodes fun c hc =>
        ⟨hc, ih c hc (hb.of_mem_children hc) (hb.not_page_of_mem_children ht hc)⟩
    rw [View.node]
    refine enter .nil (listed .nil (fun _ _ _ _ => .append) (content .nil ?_))
    exact (body (b := ⟨n, cs⟩) hmode (hplain hb.node?) hpage hnodes).mono
      fun _ _ hps => hps.begin_node hb.node? hpage

/-- What is written for a whole page begins with a document type, and so does what is written for
each further element of its list. -/
theorem page (ht : t.WellFormed) (hplain : ∀ {id m}, t.node? id = some m → m.kind.IsPlain)
    (hb : b.Shows t) : Puts (b.IsPage mode) (View.node s t mode depth b) := by
  cases hpage : b.node.kind.isPage with
  | false => exact (node hmode ht hplain hb hpage).mono fun _ _ hps => hps.isPage hpage
  | true =>
    obtain ⟨n, cs⟩ := b
    have hnodes : ∀ depth, Puts ((Branch.mk n cs).Permits t) (node.nodes s t mode depth cs) :=
      fun _ => nodes fun c hc =>
        ⟨hc, node hmode ht hplain (hb.of_mem_children hc) (hb.not_page_of_mem_children ht hc)⟩
    have hcontent : Puts ((Branch.mk n cs).ArePages mode)
        (View.content s t mode n depth fun depth => node.nodes s t mode depth cs) := by
      refine content .nil ((page_body hpage hnodes).mono ?_)
      rintro _ begun ⟨qs, rfl, hqs⟩
      exact hqs.arePages hb.node? hpage
    have hlisted : Puts ((Branch.mk n cs).ArePages mode) (View.listed s mode n <|
        View.content s t mode n depth fun depth => node.nodes s t mode depth cs) := by
      cases hkey : listKey? mode n with
      | none => exact listed_of_none hkey hcontent
      | some key =>
        exact listed .nil (fun _ _ _ _ hps hqs => hps.append hqs hpage (hkey ▸ rfl)) hcontent
    rw [View.node]
    exact (enter .nil hlisted).mono fun _ _ => Branch.ArePages.toIsPage

end Puts

end Visitors

/-- Line breaks between its parts leave a page as it is. -/
theorem isPage_of_spaced {p : Piece} {ps qs : List Piece} {begun : List NodeId}
    (h : b.IsPage mode (p :: ps) begun) (hqs : Html.Spaced ps qs) :
    b.IsPage mode (p :: qs) begun where
  nested := by
    have hnested := h.nested
    rw [WellNested, Html.opened?_cons] at hnested ⊢
    rwa [funext hqs.opened?_eq]
  pieces := by
    have hpieces := List.forall_mem_cons.mp h.pieces
    exact List.forall_mem_cons.mpr ⟨hpieces.1,
      hqs.forall_mem (fun s hs => .inr ⟨hs, trivial⟩) hpieces.2⟩
  doctype hmem := by
    have hps : .doctype ∈ p :: ps :=
      List.mem_cons.mpr ((List.mem_cons.mp hmem).imp_right hqs.mem_of_doctype_mem)
    exact h.doctype hps
  another hmem := h.another (hqs.mem_of_doctype_mem hmem)
  count hpage := by
    rw [← h.count hpage, List.count_cons, List.count_cons, hqs.count_doctype]

/-- Where visitors look at a page, its text consists of tags and of texts, after a document type if
it is a whole page. The tags are those of elements of the tree, each element with content is ended
after all those inside of it, and no other is; texts and the values of attributes hold no characters
with a meaning. This is so whatever the services answer, and wherever they cancel the walk. Only a
page with a list begins anew for each element. -/
theorem render_nested (ht : t.WellFormed) {root : NodeId} (hn : t.node? root = some n)
    (hplain : ∀ id m, t.node? id = some m → m.kind.IsPlain) {c : Context}
    (hmode : c.mode.isExport = false) (s : Services σ) (settings : Settings) (e : σ) :
    ∃ (b : Branch) (output : Output) (c' : Context) (e' : σ) (ps : List Piece),
      t.branch? root = some b ∧ render s settings t root c e = .ok (output, c', e') ∧
      output.html = String.join (ps.map Piece.written) ∧
      b.IsPage c.mode ps (walk s t b c e).started := by
  obtain ⟨b, hb, -, hshows⟩ := ht.exists_branch hn
  have hpage : Puts (b.IsPage c.mode) (node s t c.mode 0 b) :=
    .page hmode ht (hplain _ _) hshows
  obtain ⟨new, begun, hlines, hstarted, hnew⟩ := hpage { effects := e, context := c }
  have hlines : (walk s t b c e).lines.reverse = new := by
    have h : (walk s t b c e).lines = new.reverse ++ [] := hlines
    rw [h, List.append_nil, List.reverse_reverse]
  have hstarted : (walk s t b c e).started = begun.reverse := hstarted.trans (List.append_nil _)
  have hnew : b.IsPage c.mode (new.map Line.piece) (walk s t b c e).started :=
    { hnew with count := fun h => by rw [hnew.count h, hstarted, List.count_reverse] }
  have hrender : render s settings t root c e = .ok ((walk s t b c e).output settings,
      (walk s t b c e).context, (walk s t b c e).effects) := by
    rw [render, hb]
  cases new with
  | nil =>
    refine ⟨b, _, _, _, [], hb, hrender, ?_, hnew⟩
    rw [Walk.output, hlines]
    rfl
  | cons l new =>
    obtain ⟨qs, hqs, hwrite⟩ := Html.exists_spaced_write settings.indentHtml l.piece new l.depth
    refine ⟨b, _, _, _, l.piece :: qs, hb, hrender, ?_, isPage_of_spaced hnew hqs⟩
    rw [Walk.output, hlines]
    exact hwrite

/-- An element with a list, with words in places where they might be taken for markup. -/
def quotations : Snapshot :=
  let list : Properties := { dataKey := some "item" }
  .mk (some 1) { kind := .page "home" 0 false } none
    [.mk (some 2)
      { kind := .element "x-1" (.ofList [("title", "$\x7bitem\x7d")]), properties := list } none
      [.mk (some 3) { kind := .element "BR" ∅ } none [],
      .mk (some 4) { kind := .text "<b>$\x7bitem\x7d" none } none []]]

/-- No word can begin or end an element. -/
theorem render_nested_quotations :
    let t := (({} : Tree).load quotations).2
    let s := lookups [(2, ["\"></x-1>", "&lt;"])]
    ∃ (b : Branch) (output : Output) (c' : Context) (ps : List Piece),
      t.branch? 1 = some b ∧ render s {} t 1 {} () = .ok (output, c', ()) ∧
      output.html = "<!DOCTYPE html><x-1 title=\"&quot;&gt;&lt;/x-1&gt;\"><BR>" ++
        "&lt;b&gt;\"&gt;&lt;/x-1&gt;</x-1>" ++
        "<x-1 title=\"&amp;lt;\"><BR>&lt;b&gt;&amp;lt;</x-1>" ∧
      output.html = String.join (ps.map Piece.written) ∧
      b.IsPage .normal ps (walk s t b {} ()).started := by
  intro t s
  have ht : t.Reachable .successful := .load .empty quotations ⟨1, by decide⟩
  have hroot : t.node? 1 = some _ := rfl
  have hall : ∀ x ∈ t.nodes.toList, x.2.kind.IsPlain := by decide +kernel
  have hplain : ∀ id m, t.node? id = some m → m.kind.IsPlain := fun id m hm =>
    hall (id, m) (Std.ExtTreeMap.mem_toList_iff_getElem?_eq_some.mpr hm)
  have hhtml : (render s {} t 1 {} ()).toOption.map (fun (output, _, _) => output.html) =
      some ("<!DOCTYPE html><x-1 title=\"&quot;&gt;&lt;/x-1&gt;\"><BR>" ++
        "&lt;b&gt;\"&gt;&lt;/x-1&gt;</x-1>" ++
        "<x-1 title=\"&amp;lt;\"><BR>&lt;b&gt;&amp;lt;</x-1>") := by
    decide +kernel
  obtain ⟨b, output, c', e', ps, hb, hrender, hwritten, hpage⟩ :=
    render_nested ht.sound.toWellFormed hroot hplain (c := {}) rfl s {} ()
  rw [hrender] at hhtml
  exact ⟨b, output, c', ps, hb, hrender, Option.some.inj hhtml, hwritten, hpage⟩

/-- A page with a list. -/
def repeatedPage : Snapshot :=
  .mk (some 1) { kind := .page "home" 0 false, properties := { dataKey := some "item" } } none
    [.mk (some 2) { kind := .element "p" ∅ } none []]

/-- A page with a list is no sequence of tags and texts after one document type. -/
theorem not_nested_repeatedPage :
    let t := (({} : Tree).load repeatedPage).2
    ∃ (output : Output) (c' : Context),
      render (lookups [(1, ["x", "y"])]) {} t 1 {} () = .ok (output, c', ()) ∧
      ¬ ∃ ps : List Piece, (∀ p ∈ ps, p.IsProper) ∧
        (output.html = String.join (ps.map Piece.written) ∨
          output.html = String.join ((.doctype :: ps).map Piece.written)) := by
  intro t
  have hhtml : (render (lookups [(1, ["x", "y"])]) {} t 1 {} ()).toOption.map
      (fun (output, _, _) => output.html) =
        some ("<!DOCTYPE html>" ++ "<p></p><!DOCTYPE html><p></p>") := by
    decide +kernel
  cases hrender : render (lookups [(1, ["x", "y"])]) {} t 1 {} () with
  | error e => rw [hrender] at hhtml; exact nomatch hhtml
  | ok page =>
    obtain ⟨output, c', e'⟩ := page
    rw [hrender] at hhtml
    have hhtml : output.html = "<!DOCTYPE html>" ++ "<p></p><!DOCTYPE html><p></p>" :=
      Option.some.inj hhtml
    refine ⟨output, c', rfl, ?_⟩
    rintro ⟨ps, hproper, hps | hps⟩
    · apply Html.not_infix_written hproper
      rw [← hps, hhtml]
      exact ⟨[], "DOCTYPE html><p></p><!DOCTYPE html><p></p>".toList, rfl⟩
    · rw [hhtml, List.map_cons, String.join_cons] at hps
      have hrest : "<p></p><!DOCTYPE html><p></p>" = String.join (ps.map Piece.written) :=
        (String.append_right_inj _).mp hps
      apply Html.not_infix_written hproper
      rw [← hrest]
      exact ⟨"<p></p>".toList, "DOCTYPE html><p></p>".toList, rfl⟩

end View

end ContentTree
