import ContentTree.Proofs.Directive.Comment

/-!
# Where the comment with the directives ends

A reader of HTML takes a comment to end at the first `-->`. The types and the conditions of texts
are escaped, and so have no `>` in them. The names of owners and of those to whom something is
granted, and the paths of links, are written as they are: one that holds `-->` ends the comment
early, and what follows in it is read as markup.

## Main definitions

* `Directive.verbatim?`: the text in a directive that is written as it is.
* `Directive.ClosedOnce`: a comment ends where it is closed for the first time.

## Main results

* `Directive.infix_body_iff`: `-->` stands in the directives of a comment only where it stands in a
  text that is written as it is.
* `Tree.closedOnce_comment_iff`: when the comment of a node ends where it is closed first.
-/

namespace ContentTree

namespace Directive

variable {d : Directive} {ds : List Directive} {s : String}

/-- What closes a comment. -/
def closing : List Char :=
  "-->".toList

/-- A text that ends with what closes a comment, and does not hold it anywhere before. -/
def ClosedOnce (s : String) : Prop :=
  closing <:+ s.toList ∧
    ∀ before after, s.toList = before ++ (closing ++ after) → after = []

/-- The text in a directive that is written as it is. -/
def verbatim? : Directive → Option String
  | owner name => some name
  | grant principal _ => some principal
  | link path => some path
  | pageLink path => some path
  | _ => none

/-! ### What is between two borders -/

theorem not_infix_of_notMem {cs : List Char} (h : '>' ∉ cs) : ¬ closing <:+: cs :=
  fun hin => h (hin.subset (by decide))

/-- What closes a comment stands on one side of any other character. -/
theorem infix_append_cons_iff {a b : List Char} {c : Char} (hc : c ∉ closing) :
    closing <:+: a ++ c :: b ↔ closing <:+: a ∨ closing <:+: b := by
  have hborder : ∀ d ∈ (c :: b).head?, d ∉ ['-', '>'] := by
    rintro _ ⟨⟩ hd
    exact hc (List.mem_cons_of_mem _ hd)
  have hskip : closing <:+: c :: b ↔ closing <:+: b :=
    Text.infix_append_of_notMem (a := [c]) fun h => hc (List.mem_singleton.mp h ▸ by decide)
  rw [← hskip]
  exact Text.infix_append_iff hborder

/-! ### Directives -/

theorem not_infix_word (d : Directive) : ¬ closing <:+: marker.toList ++ d.word.toList := by
  apply not_infix_of_notMem
  cases d with
  | audience a => cases a <;> decide
  | _ => simp only [word]; decide

theorem not_infix_escapeAttribute (text : String) :
    ¬ closing <:+: (Html.escapeAttribute text).toList := by
  apply not_infix_of_notMem
  rw [Html.escapeAttribute, String.toList_ofList]
  exact Html.notMem_flatMap_escapeAttributeChar (by decide) (by decide) _

theorem not_infix_letters {principal letters : String} (h : (grant principal letters).IsSpelled) :
    ¬ closing <:+: letters.toList := by
  apply not_infix_of_notMem
  intro hc
  obtain ⟨p, hp⟩ := h _ hc
  cases p <;> exact absurd hp (by decide)

/-- What closes a comment stands in a directive only where it stands in a text that is written as it
is. -/
theorem infix_text_iff (h : d.IsSpelled) :
    closing <:+: d.text.toList ↔ ∃ a ∈ d.verbatim?, closing <:+: a.toList := by
  have hargument : ∀ {a : String}, d.argument? = some a →
      (closing <:+: d.text.toList ↔ closing <:+: a.toList) := by
    intro a ha
    rw [toList_text, inside_of_argument? ha, ← List.append_assoc,
      infix_append_cons_iff (by decide), or_iff_right d.not_infix_word,
      infix_append_cons_iff (by decide), or_iff_left (by decide)]
  cases d with
  | audience a =>
    have hnone : ¬ closing <:+: (audience a).text.toList := by
      rw [toList_text, inside]
      simpa [argument?] using (audience a).not_infix_word
    simp [verbatim?, hnone]
  | grant principal letters =>
    rw [hargument rfl, toList_grant, infix_append_cons_iff (by decide),
      or_iff_left (not_infix_letters h)]
    simp [verbatim?]
  | content | showWhen | hideWhen =>
    rw [hargument rfl]
    simp [verbatim?, not_infix_escapeAttribute]
  | owner | link | pageLink =>
    rw [hargument rfl]
    simp [verbatim?]

/-! ### Comments -/

/-- What closes a comment does not stand across the border of two directives. -/
theorem infix_body_iff (h : ∀ d ∈ ds, d.IsSpelled) :
    closing <:+: body ds ↔ ∃ d ∈ ds, ∃ a ∈ d.verbatim?, closing <:+: a.toList := by
  induction ds with
  | nil =>
    have hnone : ¬ closing <:+: body [] := by decide
    simp [hnone]
  | cons d ds ih =>
    rw [List.forall_mem_cons] at h
    rw [List.exists_mem_cons_iff, ← infix_text_iff h.1, ← ih h.2]
    cases ds with
    | nil =>
      have hnone : ¬ closing <:+: body [] := by decide
      simp [body_singleton, hnone]
    | cons d' ds =>
      have hseparator : ", ".toList ++ body (d' :: ds) =
          ',' :: ([] ++ ' ' :: body (d' :: ds)) := rfl
      rw [body_cons_cons, hseparator, infix_append_cons_iff (by decide),
        infix_append_cons_iff (by decide), or_iff_right (a := closing <:+: []) (by decide)]

theorem toList_comment? (hs : comment? ds = some s) :
    s.toList = ("<!--".toList ++ ' ' :: body ds) ++ ' ' :: closing := by
  cases ds with
  | nil => exact nomatch hs
  | cons d ds =>
    rw [← Option.some.inj hs]
    simp [body, closing, String.toList_append]

/-- A text with a blank before what closes it is closed once if it does not hold that before the
blank. -/
theorem closedOnce_iff {x : List Char} (hs : s.toList = x ++ ' ' :: closing) :
    ClosedOnce s ↔ ¬ closing <:+: x := by
  rw [ClosedOnce, hs]
  constructor
  · rintro ⟨-, honce⟩ ⟨before, after, rfl⟩
    exact absurd (honce before (after ++ ' ' :: closing) (by simp)) (by simp)
  · refine fun hx => ⟨⟨x ++ [' '], by simp⟩, fun before after heq => ?_⟩
    -- Another occurrence would end before the last character, where two hyphens are left.
    by_contra hne
    have hlast := congrArg List.dropLast heq
    rw [List.dropLast_append_of_ne_nil (by simp), ← List.append_assoc,
      List.dropLast_append_of_ne_nil hne] at hlast
    have hin : closing <:+: x ++ [' ', '-', '-'] := ⟨before, after.dropLast, hlast.symm⟩
    exact ((infix_append_cons_iff (by decide)).mp hin).elim hx (by decide)

theorem closedOnce_comment?_iff (hs : comment? ds = some s) (h : ∀ d ∈ ds, d.IsSpelled) :
    ClosedOnce s ↔ ∀ d ∈ ds, ∀ a ∈ d.verbatim?, Text.contains a "-->" = false := by
  rw [closedOnce_iff (toList_comment? hs), infix_append_cons_iff (by decide),
    or_iff_right (by decide), infix_body_iff h]
  simp only [not_exists, not_and, Text.contains, ← Bool.not_eq_true, Text.occurs_iff_infix,
    closing]

end Directive

namespace Tree

/-- Where an export tells something about a node, the comment before the node is closed once, at its
end, unless the name of the owner or of somebody to whom something is granted or the path of a link
holds what closes a comment. If one does, the comment ends there. The type and the conditions of a
text make no difference, whatever they hold. -/
theorem closedOnce_comment_iff (t : Tree) (id : NodeId) (hne : t.directives id ≠ []) :
    ∃ s, Directive.comment? (t.directives id) = some s ∧
      (Directive.ClosedOnce s ↔
        ∀ d ∈ t.directives id, ∀ a ∈ d.verbatim?, Text.contains a "-->" = false) := by
  obtain ⟨s, hs⟩ : ∃ s, Directive.comment? (t.directives id) = some s := by
    cases hds : t.directives id with
    | nil => exact absurd hds hne
    | cons d ds => exact ⟨_, rfl⟩
  exact ⟨s, hs, Directive.closedOnce_comment?_iff hs (t.isSpelled_directives id)⟩

/-- A page whose owner has markup in his name, and a text on it with markup in its type and in its
condition, and with parts of what closes a comment elsewhere. -/
def taggedPage : Snapshot :=
  .mk (some 1)
    { kind := .page "home" 0 false, properties := { owner := some "ann--><script>" } } none
    [.mk (some 2)
      { kind := .text "" (some "text/html--><b>")
        properties :=
          { owner := some "--"
            grants := [⟨"> --", { write := true }⟩]
            showConditions := some "a --> b" } } none []]

/-- The comment of the text is closed once, that of the page is not. -/
theorem closedOnce_comment_taggedPage :
    let t := (({} : Tree).load taggedPage).2
    (t.directives 2).length = 4 ∧
      (∃ s, Directive.comment? (t.directives 2) = some s ∧ Directive.ClosedOnce s) ∧
      ∃ s, Directive.comment? (t.directives 1) = some s ∧ ¬ Directive.ClosedOnce s := by
  intro t
  have hlength : (t.directives 2).length = 4 ∧ (t.directives 1).length = 1 := by decide +kernel
  have hverbatim : (∀ d ∈ t.directives 2, ∀ a ∈ d.verbatim?, Text.contains a "-->" = false) ∧
      ∃ d ∈ t.directives 1, ∃ a ∈ d.verbatim?, Text.contains a "-->" = true := by
    decide +kernel
  have hne : t.directives 2 ≠ [] := List.ne_nil_of_length_pos (by omega)
  have hne' : t.directives 1 ≠ [] := List.ne_nil_of_length_pos (by omega)
  obtain ⟨s, hs, hiff⟩ := t.closedOnce_comment_iff 2 hne
  obtain ⟨s', hs', hiff'⟩ := t.closedOnce_comment_iff 1 hne'
  refine ⟨hlength.1, ⟨s, hs, hiff.mpr hverbatim.1⟩, s', hs', fun h => ?_⟩
  obtain ⟨d, hd, a, ha, hcontains⟩ := hverbatim.2
  exact Bool.false_ne_true ((hiff'.mp h d hd a ha).symm.trans hcontains)

/-- The name of an owner ends the comment and goes on as markup. -/
theorem not_closedOnce_comment_taggedPage :
    let t := (({} : Tree).load taggedPage).2
    Directive.comment? (t.directives 1) =
        some "<!-- @pagetree:owner(ann--><script>) -->" ∧
      ¬ Directive.ClosedOnce "<!-- @pagetree:owner(ann--><script>) -->" := by
  refine ⟨by decide +kernel, fun h => ?_⟩
  exact absurd (h.2 "<!-- @pagetree:owner(ann".toList "<script>) -->".toList rfl) (by decide)

end Tree

end ContentTree
