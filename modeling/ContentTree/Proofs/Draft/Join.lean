import ContentTree.Proofs.Edit.Joins
import ContentTree.Proofs.Tree.Runs

/-!
# Two texts are joined

When a text takes over the content of the one after it, that one leaves the list of children they
share, and its branch leaves the document. Nothing else changes, but that the siblings after it fall
back by one.

## Main definitions

* `Node.Dwindles`: what can become of a node in the meantime.
* `Tree.content?`: the content of a node.
* `Tree.JoinsInto`: what a tree is after two of its texts were joined.
* `Draft.join`: the writes that join two texts.

## Main results

* `Draft.joinsInto_join`: the writes that join two texts do this.
-/

namespace ContentTree

open Relation

/-- A content whose text, if it is one, is the given one. -/
def Content.withText (text : String) (c : Content) : Content :=
  { c with kind := c.kind.withText text }

theorem Kind.stretches_withText (k : Kind) (more : String) :
    k.Stretches (k.withText (k.textContent?.getD "" ++ more)) := by
  cases k with
  | text content contentType => exact .inr ⟨content, more, contentType, rfl, rfl⟩
  | _ => exact .inl rfl

/-- What can become of a node while texts are joined around it and among its children: it may have
another index, fewer children, and if it is a text, a longer content. -/
structure Node.Dwindles (n m : Node) : Prop where
  kind : n.kind.Stretches m.kind
  children : m.children.Sublist n.children
  rest : m = { n with kind := m.kind, children := m.children, position := m.position }

namespace Node.Dwindles

variable {n m m' : Node}

theorem refl (n : Node) : n.Dwindles n := ⟨.inl rfl, .refl _, rfl⟩

theorem trans (h : n.Dwindles m) (h' : m.Dwindles m') : n.Dwindles m' where
  kind := h.kind.trans h'.kind
  children := h'.children.trans h.children
  rest := by
    have hm' := h'.rest
    rw [h.rest] at hm'
    exact hm'

end Node.Dwindles

namespace Tree

/-- The content of a node. -/
def content? (t : Tree) (id : NodeId) : Option Content :=
  (t.node? id).map (·.toContent)

theorem content?_eq {t : Tree} {id : NodeId} {n : Node} (h : t.node? id = some n) :
    t.content? id = some n.toContent := by
  rw [content?, h, Option.map_some]

theorem isText_eq_of_content? (t : Tree) (id : NodeId) :
    t.isText id = (t.content? id).any (·.kind.isText) := by
  rw [isText, content?]
  cases t.node? id <;> rfl

theorem ownText_eq_of_content? (t : Tree) (id : NodeId) :
    t.ownText id = ((t.content? id).bind (·.kind.textContent?)).getD "" := by
  rw [ownText, content?]
  cases t.node? id <;> rfl

/-- The text `second` has gone to the trash, and `first` has taken over its content. -/
structure JoinsInto (t t' : Tree) (first second : NodeId) : Prop where
  children : ∀ z, t'.children z = (t.children z).erase second
  under : ∀ x y, t'.Under x y ↔ x ≠ second ∧ t.Under x y
  content_first : t'.content? first =
    (t.content? first).map (·.withText (t.ownText first ++ t.ownText second))
  content_ne : ∀ x, x ≠ first → t'.content? x = t.content? x
  document_second : t'.document? second = none
  document : ∀ x, t'.document? x = t.document? x ∨ t'.document? x = none
  document_ne : ∀ x, ¬ t.Within x second → t'.document? x = t.document? x
  node : ∀ x n, t.node? x = some n → ∃ m, t'.node? x = some m ∧
    (t'.document? x ≠ none → n.Dwindles m)
  sharing : t'.sharing = t.sharing

end Tree

namespace Draft

open ContentTree.Tree (JoinsInto)

variable {d : Draft} {first second z : NodeId} {head tail n : Node}

/-- A text says more than before. -/
def lengthen (d : Draft) (first : NodeId) (head : Node) (more : String) : Draft :=
  d.setContent first (head.toContent.withText (d.tree.ownText first ++ more))

/-- The first of two texts takes over what both say, and the second goes to the trash. -/
def join (d : Draft) (first second : NodeId) (head : Node) : Draft :=
  (d.lengthen first head (d.tree.ownText second)).discard second

/-! ### A text says more -/

section Lengthen

variable (hfirst : d.tree.node? first = some head)
include hfirst

/-- The text remains what it was, only longer. -/
theorem stretches_lengthen (more : String) :
    head.kind.Stretches (head.kind.withText (d.tree.ownText first ++ more)) := by
  rw [Tree.ownText_eq hfirst]
  exact head.kind.stretches_withText more

theorem isPage_lengthen (more : String) :
    (head.toContent.withText (d.tree.ownText first ++ more)).kind.isPage = head.kind.isPage :=
  Kind.isPage_eq_of_same (stretches_lengthen hfirst more).same

theorem sound_lengthen (h : d.tree.Sound) (more : String) :
    (d.lengthen first head more).tree.Sound :=
  h.setContent fun m hm => by
    obtain rfl := Option.some.inj (hfirst.symm.trans hm)
    exact isPage_lengthen hfirst more

theorem coherent_lengthen (h : d.tree.Keyed) (hc : d.tree.Coherent) (more : String) :
    (d.lengthen first head more).tree.Coherent :=
  coherent_setContent h hc hfirst (isPage_lengthen hfirst more)

theorem document?_lengthen (h : d.tree.Keyed) (more : String) (x : NodeId) :
    (d.lengthen first head more).tree.document? x = d.tree.document? x :=
  document?_setContent h hfirst (isPage_lengthen hfirst more) x

theorem content?_lengthen (h : d.tree.Keyed) (more : String) (x : NodeId) :
    (d.lengthen first head more).tree.content? x = if x = first
      then some (head.toContent.withText (d.tree.ownText first ++ more))
      else d.tree.content? x := by
  have hg := rewritten_setContent h first
    (head.toContent.withText (d.tree.ownText first ++ more))
  rw [lengthen]
  split
  · next hx =>
    subst hx
    rw [Tree.content?_eq (hg.node?_of_some hfirst), at_, if_pos (h hfirst)]
    cases hk : head.kind <;> simp [recast, Content.withText, hk, Kind.version?, Kind.withVersion,
      Kind.withText]
  · next hx =>
    rw [Tree.content?, hg.node?, Tree.content?]
    cases hn : d.tree.node? x with
    | none => rfl
    | some n => rw [Option.map_some, at_, if_neg (by rwa [h hn])]

theorem dwindles_lengthen (h : d.tree.Keyed) (more : String) (hz : d.tree.node? z = some n) :
    ∃ m, (d.lengthen first head more).tree.node? z = some m ∧ n.Dwindles m := by
  have hg := rewritten_setContent h first
    (head.toContent.withText (d.tree.ownText first ++ more))
  refine ⟨_, hg.node?_of_some hz, ?_⟩
  unfold at_
  split
  · next hid =>
    obtain rfl := Option.some.inj (hfirst.symm.trans (hid ▸ (h hz).symm ▸ hz))
    have hstretches := stretches_lengthen hfirst more
    rw [recast_of_stretches rfl hstretches]
    exact ⟨hstretches, .refl _, rfl⟩
  · exact .refl n

end Lengthen

theorem children_lengthen (h : d.tree.Keyed) (first : NodeId) (head : Node) (more : String)
    (z : NodeId) : (d.lengthen first head more).tree.children z = d.tree.children z :=
  children_of_at (rewritten_setContent h first _).node? (fun _ => rfl) z

theorem under_lengthen (h : d.tree.Keyed) (first : NodeId) (head : Node) (more : String)
    (x y : NodeId) : (d.lengthen first head more).tree.Under x y ↔ d.tree.Under x y := by
  rw [Tree.Under, Tree.Under, lengthen,
    parent?_of_at (rewritten_setContent h first _).node? fun _ => rfl]

/-! ### A text goes to the trash -/

/-- What becomes of a node when a child leaves another one. -/
theorem dwindles_detach (h : d.tree.WellFormed) (hz : d.tree.node? z = some n) (hne : z ≠ second) :
    ∃ m, (d.detach second).tree.node? z = some m ∧ n.Dwindles m := by
  cases hparent : d.tree.parent? second with
  | none =>
    rw [detach_of_root hparent]
    exact ⟨n, hz, .refl n⟩
  | some p =>
    obtain ⟨m, hm, hp⟩ := Tree.Under.exists_node hparent
    have hid : n.id ≠ second := h.keyed hz ▸ hne
    refine ⟨_, (rewritten_detach h hm hp).node?_of_some hz, .inl rfl, ?_, ?_⟩
    · unfold detached
      dsimp only
      split
      · exact List.eraseIdx_sublist _ _
      · exact .refl _
    · simp [detached, hid]

theorem content?_discard (h : d.tree.WellFormed) (c x : NodeId) :
    (d.discard c).tree.content? x = d.tree.content? x := by
  obtain ⟨g, hg, hkeep⟩ := relocated_discard h c
  rw [Tree.content?, hg.node?, Tree.content?]
  cases d.tree.node? x with
  | none => rfl
  | some n => rw [Option.map_some, Option.map_some, Option.map_some, (hkeep n).1]

theorem dwindles_discard (h : d.tree.WellFormed) (hsecond : d.tree.node? second = some tail)
    (hpage : tail.kind.isPage = false) (hz : d.tree.node? z = some n) :
    ∃ m, (d.discard second).tree.node? z = some m ∧
      ((d.discard second).tree.document? z ≠ none → n.Dwindles m) := by
  obtain ⟨m, hm, -⟩ := (relocated_discard h second).exists_node hz
  refine ⟨m, hm, fun hdocument => ?_⟩
  have hne : z ≠ second := by
    rintro rfl
    obtain ⟨k, hk, hcontent, -⟩ := (relocated_detach h z).exists_node hsecond
    exact hdocument (document?_setDocument_root (h.detach z) hk (by rw [hcontent, hpage]) none)
  obtain ⟨k, hk, hdwindles⟩ := dwindles_detach h hz hne
  have hg := rewritten_setDocument (h.detach second).keyed second none
  obtain rfl := Option.some.inj (hm.symm.trans (hg.node?_of_some hk))
  -- What keeps a document is a page, or it is not in the branch that leaves.
  unfold documented at hdocument hm ⊢
  split
  · next hin =>
    rw [if_pos hin] at hm
    rw [Tree.document?_eq hm] at hdocument
    simp [Node.owningPage, hin.2] at hdocument
  · exact hdwindles

/-! ### Two texts are joined -/

section Join

variable (hfirst : d.tree.node? first = some head)
include hfirst

theorem sound_join (h : d.tree.Sound) : (d.join first second head).tree.Sound :=
  (sound_lengthen hfirst h _).discard second

variable (hsecond : d.tree.node? second = some tail) (htext : tail.kind.isText = true)
include hsecond htext

/-- The second text is still there when it goes to the trash. -/
theorem exists_second_lengthen (h : d.tree.Keyed) (more : String) :
    ∃ m, (d.lengthen first head more).tree.node? second = some m ∧ m.kind.isPage = false := by
  obtain ⟨m, hm, hdwindles⟩ := dwindles_lengthen hfirst h more hsecond
  exact ⟨m, hm, by rw [Kind.isPage_eq_of_same hdwindles.kind.same, Edit.isPage_of_isText htext]⟩

theorem coherent_join (h : d.tree.Sound) (hc : d.tree.Coherent) :
    (d.join first second head).tree.Coherent := by
  obtain ⟨m, hm, hpage⟩ := exists_second_lengthen hfirst hsecond htext h.keyed _
  exact coherent_detach_setDocument (sound_lengthen hfirst h _).toWellFormed
    (coherent_lengthen hfirst h.keyed hc _) hm hpage fun _ hnone => nomatch hnone

/-- What the writes that join two texts make of a tree. -/
theorem joinsInto_join (h : d.tree.Sound) :
    JoinsInto d.tree (d.join first second head).tree first second := by
  obtain ⟨m, hm, hpage⟩ := exists_second_lengthen hfirst hsecond htext h.keyed
    (d.tree.ownText second)
  have hwf := (sound_lengthen hfirst h (d.tree.ownText second)).toWellFormed
  have hcontent : ∀ x, (d.join first second head).tree.content? x = if x = first
      then some (head.toContent.withText (d.tree.ownText first ++ d.tree.ownText second))
      else d.tree.content? x := fun x =>
    (content?_discard hwf second x).trans (content?_lengthen hfirst h.keyed _ x)
  refine
    { children := fun z => ?children, under := fun x y => ?under
      content_first := ?content_first, content_ne := fun x hx => ?content_ne
      document_second := ?document_second, document := fun x => ?document
      document_ne := fun x hx => ?document_ne, node := fun x n hn => ?node
      sharing := ?sharing }
  case children =>
    rw [join, children_discard hwf, children_lengthen h.keyed]
  case under =>
    rw [join, discard, under_setDocument (hwf.detach second), under_detach hwf,
      under_lengthen h.keyed]
  case content_first =>
    rw [hcontent, if_pos rfl, Tree.content?_eq hfirst, Option.map_some]
  case content_ne =>
    rw [hcontent, if_neg hx]
  case document_second =>
    obtain ⟨k, hk, hkept, -⟩ := (relocated_detach hwf second).exists_node hm
    exact document?_setDocument_root (hwf.detach second) hk (by rw [hkept, hpage]) none
  case document =>
    rw [← document?_lengthen hfirst h.keyed (d.tree.ownText second) x]
    exact document?_discard hwf second x
  case document_ne =>
    rw [← document?_lengthen hfirst h.keyed (d.tree.ownText second) x]
    refine document?_discard_of_not_within hwf fun hw => hx ?_
    exact ReflTransGen.mono (fun x y hu => (under_lengthen h.keyed _ _ _ x y).mp hu) _ _ hw
  case node =>
    obtain ⟨k, hk, hlonger⟩ := dwindles_lengthen hfirst h.keyed (d.tree.ownText second) hn
    obtain ⟨k', hk', hrest⟩ := dwindles_discard hwf hm hpage hk
    exact ⟨k', hk', fun hkept => hlonger.trans (hrest hkept)⟩
  case sharing =>
    have hg := rewritten_setContent h.keyed first
      (head.toContent.withText (d.tree.ownText first ++ d.tree.ownText second))
    exact (relocated_discard hwf second).sharing.trans hg.sharing

end Join

end Draft

end ContentTree
