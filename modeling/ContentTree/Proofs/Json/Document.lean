import ContentTree.Json.Reader
import ContentTree.Proofs.Json.Token

/-!
# Documents read back

A document without floats and without unreadable pieces is read back from its text, in either
layout. Both layouts have the same tokens, and the tokens make up the document again.

## Main definitions

* `Plain`: documents that are read back.
* `Json.tokens`: the tokens of a document.
* `Begins`, `BeginsKey`: where a value or a key may begin.
* `Parses`: a document whose tokens make it up.

## Main results

* `Plain.lexes_compactChars`, `Plain.lexes_prettyChars`: both layouts have the tokens of the
  document.
* `Plain.parses`: the tokens make up the document, wherever a value may begin.
* `Plain.parse?_compact`, `Plain.parse?_pretty`, `Plain.read?_pretty`: documents are read back.
-/

namespace ContentTree.Json

variable {j : Json} {items : List Json} {fields : List (String × Json)} {outer : List Frame}
  {s : State}

/-- The documents that are read back: those without floats, negative numbers, numbers that do not
fit into 64 bits, and unreadable pieces. -/
inductive Plain : Json → Prop
  | null : Plain .null
  | bool (b : Bool) : Plain (.bool b)
  | nat {n : Nat} (hn : n < wholeBound) : Plain (nat n)
  | string (s : String) : Plain (.string s)
  | array {items : List Json} (h : ∀ item ∈ items, Plain item) : Plain (.array items)
  | object {fields : List (String × Json)} (h : ∀ field ∈ fields, Plain field.2) :
    Plain (.object fields)

/-! ### Tokens -/

/-- The tokens of a document. -/
def tokens : Json → List Token
  | .string s => [.string (some s)]
  | .array items => .openArray :: [.comma].intercalate (itemTokens items) ++ [.closeArray]
  | .object fields => .openObject :: [.comma].intercalate (fieldTokens fields) ++ [.closeObject]
  | scalar => [.word scalar]
where
  itemTokens : List Json → List (List Token)
    | [] => []
    | item :: items => tokens item :: itemTokens items
  fieldTokens : List (String × Json) → List (List Token)
    | [] => []
    | (key, item) :: fields => (.string (some key) :: .colon :: tokens item) :: fieldTokens fields

theorem itemTokens_eq (items : List Json) : tokens.itemTokens items = items.map tokens := by
  induction items with
  | nil => rfl
  | cons item items ih => rw [tokens.itemTokens, ih, List.map_cons]

/-- The tokens of a field. -/
def fieldTokens (field : String × Json) : List Token :=
  .string (some field.1) :: .colon :: field.2.tokens

theorem fieldTokens_eq (fields : List (String × Json)) :
    tokens.fieldTokens fields = fields.map fieldTokens := by
  induction fields with
  | nil => rfl
  | cons field fields ih => rw [tokens.fieldTokens, ih, List.map_cons, fieldTokens]

/-! ### Layouts -/

theorem compactItems_eq (items : List Json) :
    compactChars.compactItems items = [','].intercalate (items.map compactChars) := by
  induction items with
  | nil => rfl
  | cons item items ih =>
    cases items with
    | nil => simp [compactChars.compactItems]
    | cons next items =>
      rw [compactChars.compactItems, ih] <;> simp [List.intercalate_cons_cons]

theorem compactFields_eq (fields : List (String × Json)) :
    compactChars.compactFields fields =
      [','].intercalate
        (fields.map fun field => stringChars field.1 ++ ':' :: field.2.compactChars) := by
  induction fields with
  | nil => rfl
  | cons field fields ih =>
    cases fields with
    | nil => simp [compactChars.compactFields]
    | cons next fields =>
      rw [compactChars.compactFields, ih] <;> simp [List.intercalate_cons_cons]

theorem prettyItems_eq (level : Nat) (items : List Json) :
    prettyChars.prettyItems level items =
      [','].intercalate (items.map fun item => newline level ++ prettyChars level item) := by
  induction items with
  | nil => rfl
  | cons item items ih =>
    cases items with
    | nil => simp [prettyChars.prettyItems]
    | cons next items =>
      rw [prettyChars.prettyItems, ih] <;> simp [List.intercalate_cons_cons]

theorem prettyFields_eq (level : Nat) (fields : List (String × Json)) :
    prettyChars.prettyFields level fields =
      [','].intercalate (fields.map fun field =>
        newline level ++ stringChars field.1 ++ ':' :: ' ' :: prettyChars level field.2) := by
  induction fields with
  | nil => rfl
  | cons field fields ih =>
    cases fields with
    | nil => simp [prettyChars.prettyFields]
    | cons next fields =>
      rw [prettyChars.prettyFields, ih] <;> simp [List.intercalate_cons_cons]

/-- Items with commas between them, before what closes them. -/
theorem Lexes.intercalate {α : Type} {write : α → List Char} {tokens : α → List Token}
    {as : List α} (h : ∀ a ∈ as, Lexes (write a) (tokens a)) {close : List Char}
    {closing : List Token} (hclose : Lexes close closing) (hends : ∀ rest, Ends (close ++ rest)) :
    Lexes ([','].intercalate (as.map write) ++ close)
      ([.comma].intercalate (as.map tokens) ++ closing) := by
  induction as with
  | nil => exact hclose
  | cons a as ih =>
    rw [List.forall_mem_cons] at h
    cases as with
    | nil => simpa using h.1.append hclose hends
    | cons b as =>
      have hrest := ih h.2
      simp only [List.map_cons, List.intercalate_cons_cons, List.append_assoc] at hrest ⊢
      exact h.1.append (.cons rfl (fun _ => rfl) hrest) fun _ => rfl

/-- The text without white space has the tokens of the document. -/
theorem Plain.lexes_compactChars (h : Plain j) : Lexes j.compactChars j.tokens := by
  induction h with
  | null => exact .single rfl fun _ _ => rfl
  | bool b => cases b <;> exact .single rfl fun _ _ => rfl
  | nat hn => exact .digitChars hn
  | string s => exact .stringChars s
  | array _ ih =>
    rw [compactChars, tokens, compactItems_eq, itemTokens_eq]
    exact .cons rfl (fun _ => rfl)
      (.intercalate ih (.cons rfl (fun _ => rfl) .nil) fun _ => rfl)
  | object _ ih =>
    rw [compactChars, tokens, compactFields_eq, fieldTokens_eq]
    refine .cons rfl (fun _ => rfl)
      (.intercalate (fun field hfield => ?_) (.cons rfl (fun _ => rfl) .nil) fun _ => rfl)
    exact (Lexes.stringChars field.1).append (.cons rfl (fun _ => rfl) (ih field hfield))
      fun _ => rfl

/-- So has the text with each item on a line of its own. -/
theorem Plain.lexes_prettyChars (h : Plain j) (level : Nat) :
    Lexes (j.prettyChars level) j.tokens := by
  induction h generalizing level with
  | null => exact Plain.null.lexes_compactChars
  | bool b => exact (Plain.bool b).lexes_compactChars
  | nat hn => exact (Plain.nat hn).lexes_compactChars
  | string s => exact (Plain.string s).lexes_compactChars
  | @array items _ ih =>
    -- Without items, the brackets stand on one line.
    cases items with
    | nil => exact .cons rfl (fun _ => rfl) (.cons rfl (fun _ => rfl) .nil)
    | cons item items =>
      rw [prettyChars, tokens, prettyItems_eq, itemTokens_eq, List.append_assoc]
      · exact .cons rfl (fun _ => rfl)
          (.intercalate (fun item hitem => .newline _ (ih item hitem _))
            (.newline level (.cons rfl (fun _ => rfl) .nil)) fun _ => rfl)
      · simp
  | @object fields _ ih =>
    cases fields with
    | nil => exact .cons rfl (fun _ => rfl) (.cons rfl (fun _ => rfl) .nil)
    | cons field fields =>
      rw [prettyChars, tokens, prettyFields_eq, fieldTokens_eq, List.append_assoc]
      · refine .cons rfl (fun _ => rfl) (.intercalate (fun field hfield => ?_)
          (.newline level (.cons rfl (fun _ => rfl) .nil)) fun _ => rfl)
        rw [List.append_assoc]
        exact .newline _ ((Lexes.stringChars field.1).append
          (.cons rfl (fun _ => rfl) (.separator rfl (ih field hfield _))) fun _ => rfl)
      · simp

/-! ### Values -/

/-- A value may begin inside the given open arrays and objects. -/
def Begins (s : State) (outer : List Frame) : Prop :=
  s = .value outer ∨ s = .item outer ∧ ∃ rest, outer = .array [] :: rest

/-- Wherever a value may begin, its first token is taken in the same way. Only the end of an array
is not the beginning of a value. -/
theorem Begins.step_eq (h : Begins s outer) {token : Token} (htoken : token ≠ .closeArray) :
    step s token = beginValue outer token := by
  rcases h with rfl | ⟨rfl, rest, rfl⟩
  · rfl
  · cases token <;> first | rfl | exact absurd rfl htoken

theorem Begins.foldlM_word (h : Begins s outer) (value : Json) :
    [Token.word value].foldlM step s = some (.after value outer) := by
  rw [List.foldlM_cons, h.step_eq (by simp)]
  rfl

/-- A key may begin after the given fields, inside the given open arrays and objects. -/
def BeginsKey (s : State) (fields : RawFields) (outer : List Frame) : Prop :=
  s = .key fields outer ∨ s = .firstKey outer ∧ fields = []

theorem BeginsKey.step_eq {fields : RawFields} (h : BeginsKey s fields outer)
    (key : Option String) : step s (.string key) = some (.colon fields key outer) := by
  rcases h with rfl | ⟨rfl, rfl⟩ <;> rfl

/-- Fields as they are kept while an object is being read. -/
def raw (fields : List (String × Json)) : RawFields :=
  fields.map fun field => (some field.1, field.2)

theorem ofFields_raw (fields : List (String × Json)) : ofFields (raw fields) = .object fields := by
  have h : (raw fields).mapM (fun field => field.1.map (·, field.2)) = some fields := by
    induction fields with
    | nil => rfl
    | cons field fields ih =>
      rw [raw, List.map_cons, List.mapM_cons, ← raw, ih]
      rfl
  rw [ofFields, h]

/-- A value whose tokens make it up, wherever it may begin. -/
def Parses (j : Json) : Prop :=
  ∀ s outer, Begins s outer → j.tokens.foldlM step s = some (.after j outer)

/-- Items are added to those before them until the array ends. -/
theorem foldlM_items (h : ∀ item ∈ items, Parses item) (hne : items ≠ []) (done : List Json)
    (hs : Begins s (.array done :: outer)) :
    ([Token.comma].intercalate (items.map tokens) ++ [Token.closeArray]).foldlM step s =
      some (.after (.array (done.reverse ++ items)) outer) := by
  -- The items before are kept last first, and only the first one may be missing.
  induction items generalizing s done with
  | nil => exact absurd rfl hne
  | cons item items ih =>
    rw [List.forall_mem_cons] at h
    cases items with
    | nil =>
      rw [List.map_singleton, List.intercalate_singleton, List.foldlM_append, h.1 s _ hs]
      exact congrArg (fun items => some (State.after (.array items) outer)) List.reverse_cons
    | cons next items =>
      rw [List.map_cons, List.map_cons, List.intercalate_cons_cons, ← List.map_cons,
        List.append_assoc, List.append_assoc, List.foldlM_append, h.1 s _ hs]
      have hrest := ih h.2 (List.cons_ne_nil _ _) (item :: done) (.inl rfl)
      rw [List.reverse_cons, List.append_assoc] at hrest
      exact hrest

theorem foldlM_field {field : String × Json} (h : Parses field.2) {before : RawFields}
    (hs : BeginsKey s before outer) : (fieldTokens field).foldlM step s =
      some (.after field.2 (.object before (some field.1) :: outer)) := by
  rw [fieldTokens, List.foldlM_cons, hs.step_eq]
  exact h _ _ (.inl rfl)

/-- Fields are added to those before them until the object ends. -/
theorem foldlM_fields (h : ∀ field ∈ fields, Parses field.2) (hne : fields ≠ [])
    (done : List (String × Json)) (hs : BeginsKey s (raw done).reverse outer) :
    ([Token.comma].intercalate (fields.map fieldTokens) ++ [Token.closeObject]).foldlM step s =
      some (.after (.object (done ++ fields)) outer) := by
  induction fields generalizing s done with
  | nil => exact absurd rfl hne
  | cons field fields ih =>
    rw [List.forall_mem_cons] at h
    have hdone : (some field.1, field.2) :: (raw done).reverse =
        (raw (done ++ [field])).reverse := by
      simp [raw]
    cases fields with
    | nil =>
      rw [List.map_singleton, List.intercalate_singleton, List.foldlM_append, foldlM_field h.1 hs]
      change some (State.after (ofFields ((some field.1, field.2) :: (raw done).reverse).reverse)
        outer) = _
      rw [hdone, List.reverse_reverse, ofFields_raw]
    | cons next fields =>
      rw [List.map_cons, List.map_cons, List.intercalate_cons_cons, ← List.map_cons,
        List.append_assoc, List.append_assoc, List.foldlM_append, foldlM_field h.1 hs]
      have hrest := ih h.2 (List.cons_ne_nil _ _) (done ++ [field]) (.inl rfl)
      rw [List.append_assoc, ← hdone] at hrest
      exact hrest

/-- The tokens make up the document, wherever a value may begin. -/
theorem Plain.parses (h : Plain j) : Parses j := by
  induction h with
  | null => exact fun _ _ hs => hs.foldlM_word _
  | bool b => exact fun _ _ hs => hs.foldlM_word _
  | nat hn => exact fun _ _ hs => hs.foldlM_word _
  | string text =>
    intro s outer hs
    rw [tokens, List.foldlM_cons, hs.step_eq (by simp)]
    rfl
  | @array items _ ih =>
    intro s outer hs
    rw [tokens, itemTokens_eq, List.cons_append, List.foldlM_cons, hs.step_eq (by simp)]
    by_cases hne : items = []
    · rw [hne]
      rfl
    · exact foldlM_items ih hne [] (.inr ⟨rfl, outer, rfl⟩)
  | @object fields _ ih =>
    intro s outer hs
    rw [tokens, fieldTokens_eq, List.cons_append, List.foldlM_cons, hs.step_eq (by simp)]
    by_cases hne : fields = []
    · rw [hne]
      rfl
    · exact foldlM_fields ih hne [] (.inr ⟨rfl, rfl⟩)

/-! ### Texts -/

theorem Plain.parse?_ofList (h : Plain j) {text : List Char} (htext : Lexes text j.tokens) :
    parse? (String.ofList text) = some j := by
  rw [parse?, String.toList_ofList, htext.tokens?_eq, Option.bind_some, ofTokens?,
    h.parses _ _ (.inl rfl)]

theorem Plain.parse?_compact (h : Plain j) : parse? j.compact = some j :=
  h.parse?_ofList h.lexes_compactChars

theorem Plain.parse?_pretty (h : Plain j) : parse? j.pretty = some j :=
  h.parse?_ofList (h.lexes_prettyChars 0)

/-- A document that is not nested too deeply is read back from either text. -/
theorem Plain.read?_compact (h : Plain j) (hdepth : j.depth ≤ nestingLimit) :
    read? j.compact = some j := by
  rw [read?, h.parse?_compact, Option.map_some, within_of_depth_le j hdepth]

theorem Plain.read?_pretty (h : Plain j) (hdepth : j.depth ≤ nestingLimit) :
    read? j.pretty = some j := by
  rw [read?, h.parse?_pretty, Option.map_some, within_of_depth_le j hdepth]

end ContentTree.Json
