import ContentTree.Html.Escape
import ContentTree.Proofs.Text.Search

/-!
# Escaped texts

The characters with a meaning in HTML do not stand in an escaped text, and all others stand in it
as they are. An escaped value is read back by putting one kind of character back after the other:
each kind is recognised whatever has been put back before, since ampersands come last.

## Main definitions

* `writtenChar`: how a character is written where some are put back already.

## Main results

* `foldl_escapes_flatMap`, `unescapeAttribute_escapeAttribute`: an escaped text is read back.
* `notMem_flatMap_escapeTextChar`, `notMem_flatMap_escapeAttributeChar`: which characters do not
  stand in escaped texts.
* `infix_flatMap_escapeAttributeChar`: escaping does not hide a piece without such characters.
-/

namespace ContentTree.Html

variable {c m : Char} {back cs tail : List Char} {e : String}

/-! ### Escapes -/

/-- The characters that are escaped in the value of an attribute. -/
abbrev escaped : List Char :=
  escapes.map Prod.snd

theorem escapeAttributeChar_of_mem (h : (e, c) ∈ escapes) :
    escapeAttributeChar c = e.toList := by
  simp only [escapes, List.mem_cons, Prod.mk.injEq, List.not_mem_nil, or_false] at h
  rcases h with h | h | h | h | h <;> obtain ⟨rfl, rfl⟩ := h <;> rfl

theorem escapeAttributeChar_of_notMem (h : c ∉ escaped) : escapeAttributeChar c = [c] := by
  simp only [escaped, escapes, List.map_cons, List.map_nil, List.mem_cons, List.not_mem_nil,
    or_false, not_or] at h
  unfold escapeAttributeChar escapeTextChar
  simp [h]

theorem exists_escape (h : c ∈ escaped) : ∃ e, (e, c) ∈ escapes := by
  obtain ⟨⟨e, _⟩, he, rfl⟩ := List.mem_map.mp h
  exact ⟨e, he⟩

/-- Every escape begins with an ampersand, and has no other. -/
theorem escape_eq_cons (h : (e, c) ∈ escapes) :
    ∃ code, e.toList = '&' :: code ∧ '&' ∉ code := by
  have hall : ∀ x ∈ escapes, x.1.toList = '&' :: x.1.toList.tail ∧ '&' ∉ x.1.toList.tail := by
    decide
  exact ⟨_, hall _ h⟩

/-- No escape begins with another one. -/
theorem not_escape_prefix {x y : String × Char} (hx : x ∈ escapes) (hy : y ∈ escapes)
    (hne : x ≠ y) (rest : List Char) : ¬ x.1.toList <+: y.1.toList ++ rest := by
  have hall : ∀ x ∈ escapes, ∀ y ∈ escapes, x ≠ y → ¬ x.1.toList <+: y.1.toList := by decide
  intro h
  rcases List.prefix_or_prefix_of_prefix h (List.prefix_append _ _) with h | h
  · exact hall x hx y hy hne h
  · exact hall y hy x hx hne.symm h

/-! ### Reading back -/

/-- Characters other than ampersands are not looked into. -/
theorem replace_escape_append (he : (e, m) ∈ escapes) (other rest : List Char) (h : '&' ∉ cs) :
    Text.replace e.toList other (cs ++ rest) = cs ++ Text.replace e.toList other rest := by
  induction cs with
  | nil => rfl
  | cons c cs ih =>
    rw [List.mem_cons, not_or] at h
    obtain ⟨code, hcode, -⟩ := escape_eq_cons he
    have hpre : ¬ e.toList <+: c :: (cs ++ rest) := by
      rw [hcode, List.cons_prefix_cons]
      exact fun hc => h.1 hc.1
    rw [List.cons_append, Text.replace_cons_of_not_prefix _ hpre, ih h.2, List.cons_append]

/-- Putting back one kind of character leaves the other escapes as they are. -/
theorem replace_escape_other {x y : String × Char} (hx : x ∈ escapes) (hy : y ∈ escapes)
    (hne : x ≠ y) (other rest : List Char) :
    Text.replace x.1.toList other (y.1.toList ++ rest) =
      y.1.toList ++ Text.replace x.1.toList other rest := by
  obtain ⟨code, hcode, hamp⟩ := escape_eq_cons hy
  have hpre := not_escape_prefix hx hy hne rest
  rw [hcode, List.cons_append] at hpre ⊢
  rw [Text.replace_cons_of_not_prefix _ hpre, replace_escape_append hx _ _ hamp,
    List.cons_append]

/-- How a character is written in the value of an attribute, where some are put back already. -/
def writtenChar (back : List Char) (c : Char) : List Char :=
  if c ∈ back then [c] else escapeAttributeChar c

/-- Puts back one kind of character more. -/
theorem replace_flatMap_writtenChar (he : (e, m) ∈ escapes) (hm : m ∉ back) (hamp : '&' ∉ back)
    (cs : List Char) : Text.replace e.toList [m] (cs.flatMap (writtenChar back)) =
      cs.flatMap (writtenChar (m :: back)) := by
  refine Text.replace_flatMap (fun c rest => ?_) cs
  by_cases hback : c ∈ back
  · have hc : '&' ∉ [c] := fun h => hamp (List.mem_singleton.mp h ▸ hback)
    simp only [writtenChar, hback, List.mem_cons, or_true, if_true]
    exact replace_escape_append he _ _ hc
  · by_cases hcm : c = m
    · obtain rfl := hcm
      obtain ⟨code, hcode, -⟩ := escape_eq_cons he
      simp only [writtenChar, hback, List.mem_cons, true_or, if_true, if_false,
        escapeAttributeChar_of_mem he]
      exact Text.replace_append_self (by simp [hcode]) _ _
    · simp only [writtenChar, hback, hcm, List.mem_cons, or_self, if_false]
      by_cases hc : c ∈ escaped
      · obtain ⟨e', he'⟩ := exists_escape hc
        rw [escapeAttributeChar_of_mem he']
        exact replace_escape_other he he' (by simp [Ne.symm hcm]) _ _
      · have hne : '&' ∉ [c] := fun h => hc (List.mem_singleton.mp h ▸ by decide)
        rw [escapeAttributeChar_of_notMem hc]
        exact replace_escape_append he _ _ hne

/-- An escaped text is read back. -/
theorem foldl_escapes_flatMap (cs : List Char) :
    escapes.foldl (fun text escape => Text.replace escape.1.toList [escape.2] text)
      (cs.flatMap escapeAttributeChar) = cs := by
  have hnone : escapeAttributeChar = writtenChar [] := by
    funext c
    simp [writtenChar]
  have hall : writtenChar ['&', '>', '<', '\'', '"'] = fun c => [c] := by
    funext c
    by_cases h : c ∈ ['&', '>', '<', '\'', '"']
    · rw [writtenChar, if_pos h]
    · rw [writtenChar, if_neg h]
      exact escapeAttributeChar_of_notMem (h ∘ List.mem_reverse.mpr)
  simp only [escapes, List.foldl_cons, List.foldl_nil, hnone]
  rw [replace_flatMap_writtenChar (by decide) (by decide) (by decide),
    replace_flatMap_writtenChar (by decide) (by decide) (by decide),
    replace_flatMap_writtenChar (by decide) (by decide) (by decide),
    replace_flatMap_writtenChar (by decide) (by decide) (by decide),
    replace_flatMap_writtenChar (by decide) (by decide) (by decide), hall, List.flatMap_singleton']

/-- The value of an attribute stands for the text that was escaped, also where that text looks like
escapes itself, or like parts of them. -/
theorem unescapeAttribute_escapeAttribute (s : String) :
    unescapeAttribute (escapeAttribute s) = s := by
  rw [unescapeAttribute, escapeAttribute, String.toList_ofList, foldl_escapes_flatMap,
    String.ofList_toList]

/-! ### What stands in escaped texts -/

/-- Characters with a meaning do not stand in the value of an attribute, nor between tags. -/
theorem notMem_flatMap_escapeAttributeChar (hm : m ∈ escaped) (hamp : m ≠ '&') (cs : List Char) :
    m ∉ cs.flatMap escapeAttributeChar := by
  have hall : ∀ m ∈ escaped, m ≠ '&' → ∀ x ∈ escapes, m ∉ x.1.toList := by decide
  rw [List.mem_flatMap]
  rintro ⟨c, -, hc⟩
  by_cases h : c ∈ escaped
  · obtain ⟨e, he⟩ := exists_escape h
    rw [escapeAttributeChar_of_mem he] at hc
    exact hall m hm hamp _ he hc
  · rw [escapeAttributeChar_of_notMem h, List.mem_singleton] at hc
    exact h (hc ▸ hm)

theorem notMem_flatMap_escapeTextChar (hm : m = '<' ∨ m = '>') (cs : List Char) :
    m ∉ cs.flatMap escapeTextChar := by
  rw [List.mem_flatMap]
  rintro ⟨c, -, hc⟩
  unfold escapeTextChar at hc
  split at hc
  case h_1 => rcases hm with rfl | rfl <;> exact absurd hc (by decide)
  case h_2 => rcases hm with rfl | rfl <;> exact absurd hc (by decide)
  case h_3 => rcases hm with rfl | rfl <;> exact absurd hc (by decide)
  case h_4 hlt hgt =>
    rw [List.mem_singleton] at hc
    rcases hm with rfl | rfl
    · exact hlt hc.symm
    · exact hgt hc.symm

/-- A piece without escaped characters begins an escaped text if it begins the text. -/
theorem prefix_flatMap_escapeAttributeChar (h : ∀ c ∈ tail, c ∉ escaped) :
    tail <+: cs.flatMap escapeAttributeChar ↔ tail <+: cs := by
  induction tail generalizing cs with
  | nil => simp
  | cons d tail ih =>
    rw [List.forall_mem_cons] at h
    cases cs with
    | nil => simp
    | cons c cs =>
      rw [List.flatMap_cons, List.cons_prefix_cons]
      by_cases hc : c ∈ escaped
      · have hdc : d ≠ c := fun heq => h.1 (heq ▸ hc)
        have hamp : d ≠ '&' := fun heq => h.1 (heq ▸ by decide)
        obtain ⟨e, he⟩ := exists_escape hc
        obtain ⟨code, hcode, -⟩ := escape_eq_cons he
        rw [escapeAttributeChar_of_mem he, hcode, List.cons_append, List.cons_prefix_cons]
        simp [hdc, hamp]
      · rw [escapeAttributeChar_of_notMem hc, List.singleton_append, List.cons_prefix_cons, ih h.2]

/-- A piece without escaped characters, whose first character does not stand in escapes, occurs in
an escaped text if it occurs in the text. -/
theorem infix_flatMap_escapeAttributeChar (h : ∀ c ∈ m :: tail, c ∉ escaped)
    (hm : ∀ x ∈ escapes, m ∉ x.1.toList) :
    m :: tail <:+: cs.flatMap escapeAttributeChar ↔ m :: tail <:+: cs := by
  induction cs with
  | nil => rfl
  | cons c cs ih =>
    rw [List.flatMap_cons]
    by_cases hc : c ∈ escaped
    · have hmc : m ∉ [c] := fun hmem =>
        h m List.mem_cons_self (List.mem_singleton.mp hmem ▸ hc)
      obtain ⟨e, he⟩ := exists_escape hc
      have hskip : m :: tail <:+: [c] ++ cs ↔ m :: tail <:+: cs := Text.infix_append_of_notMem hmc
      rw [escapeAttributeChar_of_mem he, Text.infix_append_of_notMem (hm _ he), ih]
      exact hskip.symm
    · rw [escapeAttributeChar_of_notMem hc, List.singleton_append, List.infix_cons_iff,
        List.infix_cons_iff, ih]
      refine or_congr_left ?_
      rw [List.cons_prefix_cons, List.cons_prefix_cons,
        prefix_flatMap_escapeAttributeChar fun c hc => h c (List.mem_cons_of_mem _ hc)]

end ContentTree.Html
