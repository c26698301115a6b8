import ContentTree.Proofs.Html.Escape
import ContentTree.Html.Writer

/-!
# Well nested pages

A page is a sequence of tags and texts. It is well nested if each element is ended where all the
elements inside have been ended, those without content apart, which have no end. In a page whose
texts and values are escaped, tags are the only places where `<` stands.

## Main definitions

* `opened?`: the elements that are open after some parts of a page.
* `WellNested`, `Closed`: parts of a page after which nothing is open that was not open before.
* `IsTag`, `IsAttributeName`, `Piece.IsProper`: the parts of pages with escaped texts and values.
* `Spaced`: parts of a page with line breaks between them.

## Main results

* `Closed.append`, `Closed.element`: how parts are put together.
* `not_infix_written`: proper parts hold no declarations.
* `exists_spaced_write`: a page consists of its parts, with line breaks between them.
-/

namespace ContentTree.Html

variable {tag s : String} {tags : List String} {attributes : List (String × String)} {p : Piece}
  {ps qs : List Piece}

/-! ### Nesting -/

/-- The elements that are open after a part of a page, innermost first, where `tags` are open before
it. A document type stands outside of all elements, and an end tag ends the innermost one. -/
def Piece.opened? : (tags : List String) → Piece → Option (List String)
  | [], .doctype => some []
  | tags, .text _ => some tags
  | tags, .startTag tag _ => some (if isVoid tag then tags else tag :: tags)
  | tag :: tags, .endTag tag' => if tag' = tag then some tags else none
  | _, _ => none

/-- The elements that are open after some parts of a page. -/
def opened? (tags : List String) (ps : List Piece) : Option (List String) :=
  ps.foldlM Piece.opened? tags

/-- All elements are ended, each one after those inside. -/
def WellNested (ps : List Piece) : Prop :=
  opened? [] ps = some []

/-- Parts that may stand inside any elements: they end what they begin, and nothing else. -/
def Closed (ps : List Piece) : Prop :=
  ∀ tags, opened? tags ps = some tags

theorem opened?_cons (tags : List String) (p : Piece) (ps : List Piece) :
    opened? tags (p :: ps) = (p.opened? tags).bind fun tags => opened? tags ps :=
  List.foldlM_cons

theorem opened?_append (tags : List String) (ps qs : List Piece) :
    opened? tags (ps ++ qs) = (opened? tags ps).bind fun tags => opened? tags qs :=
  List.foldlM_append

theorem Piece.opened?_text (tags : List String) (s : String) :
    (Piece.text s).opened? tags = some tags := by
  cases tags <;> rfl

theorem Piece.opened?_startTag (tags : List String) (tag : String)
    (attributes : List (String × String)) : (Piece.startTag tag attributes).opened? tags =
      some (if isVoid tag then tags else tag :: tags) := by
  cases tags <;> rfl

theorem WellNested.append (hp : WellNested ps) (hq : WellNested qs) : WellNested (ps ++ qs) := by
  rw [WellNested, opened?_append, hp]
  exact hq

namespace Closed

theorem nil : Closed [] :=
  fun _ => rfl

theorem append (hp : Closed ps) (hq : Closed qs) : Closed (ps ++ qs) := by
  intro tags
  rw [opened?_append, hp tags]
  exact hq tags

theorem text (s : String) : Closed [.text s] := by
  intro tags
  rw [opened?_cons, Piece.opened?_text]
  rfl

/-- An element without content has no end tag. -/
theorem void (h : isVoid tag) (attributes : List (String × String)) :
    Closed [.startTag tag attributes] := by
  intro tags
  rw [opened?_cons, Piece.opened?_startTag, if_pos h]
  rfl

/-- An element with content is ended after what is inside. -/
theorem element (h : ¬ isVoid tag) (attributes : List (String × String)) (hp : Closed ps) :
    Closed (.startTag tag attributes :: (ps ++ [.endTag tag])) := by
  intro tags
  rw [opened?_cons, Piece.opened?_startTag, if_neg h, Option.bind_some, opened?_append,
    hp (tag :: tags), Option.bind_some, opened?_cons, Piece.opened?, if_pos rfl]
  rfl

theorem wellNested (hp : Closed ps) : WellNested ps :=
  hp []

/-- A document type stands outside of all elements. -/
theorem wellNested_cons_doctype (hp : Closed ps) : WellNested (.doctype :: ps) := by
  rw [WellNested, opened?_cons]
  exact hp []

end Closed

/-! ### Escaped texts and values -/

/-- Characters that may stand in a tag: all but blanks and those that begin or end something. -/
def isTagChar (c : Char) : Bool :=
  !Text.isBlankChar c && !(['<', '>', '"', '\'', '/', '!'].contains c)

/-- A text may be the tag of an element. -/
def IsTag (tag : String) : Prop :=
  tag ≠ "" ∧ ∀ c ∈ tag.toList, isTagChar c = true

/-- A text may be the name of an attribute. -/
def IsAttributeName (name : String) : Prop :=
  ∀ c ∈ name.toList, Text.isBlankChar c = false ∧ c ∉ ['<', '>', '"', '\'']

instance (tag : String) : Decidable (IsTag tag) :=
  inferInstanceAs (Decidable (_ ∧ _))

instance (name : String) : Decidable (IsAttributeName name) :=
  inferInstanceAs (Decidable (∀ c ∈ name.toList, _))

/-- A part of a page is a tag or a text in which nothing else could be taken for a tag, nor for the
end of a value. -/
def Piece.IsProper : Piece → Prop
  | .startTag tag attributes => IsTag tag ∧ ∀ a ∈ attributes,
      IsAttributeName a.1 ∧ ∀ c ∈ ['<', '>', '"', '\''], c ∉ a.2.toList
  | .endTag tag => IsTag tag
  | .text s => ∀ c ∈ ['<', '>'], c ∉ s.toList
  | .doctype | .comment _ => False

theorem isProper_escapeText (s : String) : (Piece.text (escapeText s)).IsProper := by
  intro c hc
  rw [escapeText, String.toList_ofList]
  exact notMem_flatMap_escapeTextChar (by simpa using hc) _

theorem notMem_escapeAttribute {c : Char} (hc : c ∈ ['<', '>', '"', '\'']) (s : String) :
    c ∉ (escapeAttribute s).toList := by
  have hall : ∀ c ∈ ['<', '>', '"', '\''], c ∈ escaped ∧ c ≠ '&' := by decide
  rw [escapeAttribute, String.toList_ofList]
  exact notMem_flatMap_escapeAttributeChar (hall c hc).1 (hall c hc).2 _

/-- The writing of a tag does not begin as that of a declaration, and has no other `<` in it. -/
theorem not_infix_cons {c : Char} {cs rest : List Char} (hc : '!' ≠ c) (hlt : '<' ∉ c :: cs)
    (h : ¬ ['<', '!'] <:+: rest) : ¬ ['<', '!'] <:+: '<' :: (c :: cs ++ rest) := by
  rw [List.infix_cons_iff, Text.infix_append_of_notMem hlt, or_iff_left h, List.cons_prefix_cons,
    List.cons_append, List.cons_prefix_cons]
  exact fun hpre => hc hpre.2.1

theorem notMem_attributeText {a : String × String}
    (h : IsAttributeName a.1 ∧ ∀ c ∈ ['<', '>', '"', '\''], c ∉ a.2.toList) :
    '<' ∉ (Writer.attributeText a.1 a.2).toList := by
  have hname : '<' ∉ a.1.toList := fun hc => (h.1 '<' hc).2 (by decide)
  have hvalue : '<' ∉ a.2.toList := h.2 '<' (by decide)
  simp [Writer.attributeText, hname, hvalue]

theorem toList_written_startTag (tag : String) (attributes : List (String × String)) :
    (Piece.startTag tag attributes).written.toList = '<' :: (tag.toList ++
      (attributes.flatMap fun a => (Writer.attributeText a.1 a.2).toList) ++ ['>']) := by
  simp [Piece.written, String.toList_join, List.flatMap_map]

theorem toList_written_endTag (tag : String) :
    (Piece.endTag tag).written.toList = '<' :: ('/' :: (tag.toList ++ ['>'])) := by
  simp [Piece.written]

/-- Proper parts of a page hold no declarations. -/
theorem not_infix_written (h : ∀ p ∈ ps, p.IsProper) :
    ¬ ['<', '!'] <:+: (String.join (ps.map Piece.written)).toList := by
  induction ps with
  | nil => exact Text.not_infix_of_notMem (List.not_mem_nil)
  | cons p ps ih =>
    rw [List.forall_mem_cons] at h
    rw [List.map_cons, String.join_cons, String.toList_append]
    have hrest := ih h.2
    cases p with
    | doctype | comment => exact h.1.elim
    | text s =>
      have hlt : '<' ∉ (Piece.text s).written.toList := h.1 '<' (by decide)
      rwa [Text.infix_append_of_notMem hlt]
    | startTag tag attributes =>
      obtain ⟨⟨hne, htag⟩, hattributes⟩ := h.1
      have hlt : '<' ∉ tag.toList := fun hc => absurd (htag _ hc) (by decide)
      have hhead : '!' ∉ tag.toList := fun hc => absurd (htag _ hc) (by decide)
      have hvalues : '<' ∉ attributes.flatMap fun a => (Writer.attributeText a.1 a.2).toList := by
        rw [List.mem_flatMap]
        rintro ⟨a, ha, hc⟩
        exact notMem_attributeText (hattributes a ha) hc
      obtain ⟨c, cs, htoList⟩ : ∃ c cs, tag.toList = c :: cs :=
        List.exists_cons_of_ne_nil (by simpa using hne)
      rw [htoList] at hlt hhead
      rw [toList_written_startTag, htoList, List.cons_append, List.cons_append, List.cons_append]
      refine not_infix_cons (List.ne_of_not_mem_cons hhead) ?_ hrest
      rw [← List.cons_append, ← List.cons_append, List.mem_append, List.mem_append, not_or, not_or]
      exact ⟨⟨hlt, hvalues⟩, by decide⟩
    | endTag tag =>
      have hlt : '<' ∉ tag.toList := fun hc => absurd (h.1.2 _ hc) (by decide)
      rw [toList_written_endTag]
      exact not_infix_cons (by decide) (by simp [hlt]) hrest

/-! ### Line breaks -/

/-- Parts of a page with line breaks before some of them. -/
inductive Spaced : List Piece → List Piece → Prop
  | nil : Spaced [] []
  | same {p : Piece} {ps qs : List Piece} : Spaced ps qs → Spaced (p :: ps) (p :: qs)
  | line {s : String} {p : Piece} {ps qs : List Piece} : (Piece.text s).IsProper → Spaced ps qs →
    Spaced (p :: ps) (.text s :: p :: qs)

namespace Spaced

theorem opened?_eq (h : Spaced ps qs) (tags : List String) : opened? tags qs = opened? tags ps := by
  induction h generalizing tags with
  | nil => rfl
  | same _ ih => rw [opened?_cons, opened?_cons, funext ih]
  | line _ _ ih =>
    rw [opened?_cons, Piece.opened?_text, Option.bind_some, opened?_cons, opened?_cons, funext ih]

theorem forall_mem {P : Piece → Prop} (h : Spaced ps qs)
    (htext : ∀ s, (Piece.text s).IsProper → P (.text s)) (hps : ∀ p ∈ ps, P p) : ∀ q ∈ qs, P q := by
  induction h with
  | nil => exact hps
  | same _ ih =>
    rw [List.forall_mem_cons] at hps ⊢
    exact ⟨hps.1, ih hps.2⟩
  | line hs _ ih =>
    rw [List.forall_mem_cons] at hps
    rw [List.forall_mem_cons, List.forall_mem_cons]
    exact ⟨htext _ hs, hps.1, ih hps.2⟩

theorem count_doctype (h : Spaced ps qs) : qs.count .doctype = ps.count .doctype := by
  induction h with
  | nil => rfl
  | same _ ih => rw [List.count_cons, List.count_cons, ih]
  | line _ _ ih =>
    rw [List.count_cons_of_ne (by simp), List.count_cons, List.count_cons, ih]

theorem mem_of_doctype_mem (h : Spaced ps qs) (hq : .doctype ∈ qs) : .doctype ∈ ps := by
  rw [← List.count_pos_iff] at hq ⊢
  rwa [h.count_doctype] at hq

end Spaced

theorem exists_break (w : Writer) (l : Line) :
    (w.put l).text = w.text ++ l.piece.written ∨ ∃ s, (Piece.text s).IsProper ∧
      (w.put l).text = w.text ++ ((Piece.text s).written ++ l.piece.written) := by
  unfold Writer.put Writer.line
  split
  · refine .inr ⟨String.ofList ('\n' :: List.replicate (2 * l.depth) ' '), ?_, ?_⟩
    · intro c hc
      rw [String.toList_ofList, List.mem_cons, List.mem_replicate]
      rintro (rfl | ⟨-, rfl⟩) <;> exact absurd hc (by decide)
    · simp [Writer.push, Piece.written, String.append_assoc]
  · exact .inl rfl

theorem exists_spaced_foldl (w : Writer) (lines : List Line) :
    ∃ qs, Spaced (lines.map Line.piece) qs ∧
      (lines.foldl Writer.put w).text = w.text ++ String.join (qs.map Piece.written) := by
  induction lines generalizing w with
  | nil => exact ⟨[], .nil, by simp⟩
  | cons l lines ih =>
    obtain ⟨qs, hqs, htext⟩ := ih (w.put l)
    rcases exists_break w l with hput | ⟨s, hs, hput⟩
    · refine ⟨l.piece :: qs, .same hqs, ?_⟩
      rw [List.foldl_cons, htext, hput, List.map_cons, String.join_cons, String.append_assoc]
    · refine ⟨.text s :: l.piece :: qs, .line hs hqs, ?_⟩
      rw [List.foldl_cons, htext, hput, List.map_cons, List.map_cons, String.join_cons,
        String.join_cons, String.append_assoc, String.append_assoc]

/-- A page consists of its parts with line breaks between them: the first part begins the page. -/
theorem exists_spaced_write (indent : Bool) (p : Piece) (lines : List Line) (depth : Nat) :
    ∃ qs, Spaced (lines.map Line.piece) qs ∧
      write indent (⟨depth, p⟩ :: lines) = String.join ((p :: qs).map Piece.written) := by
  obtain ⟨qs, hqs, htext⟩ := exists_spaced_foldl (({ indent } : Writer).put ⟨depth, p⟩) lines
  refine ⟨qs, hqs, ?_⟩
  rw [write, List.foldl_cons, htext, List.map_cons, String.join_cons]
  congr 1
  simp [Writer.put, Writer.line, Writer.push]

end ContentTree.Html
