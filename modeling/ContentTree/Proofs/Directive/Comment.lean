import ContentTree.Directive.Comment
import ContentTree.Proofs.Except
import ContentTree.Proofs.Html.Escape
import ContentTree.Snapshot.Load

/-!
# Directives read back from comments

The comment before a node tells its directives, one after the other, without quotes around the texts
in them. It is read back as long as none of these texts holds what divides two directives: then a
divider stands only where one directive ends and the next begins, and within a directive the first
parenthesis, the last one and the last comma are those that have been written. Where a text does
hold a divider, the comment falls into more parts than there are directives.

## Main definitions

* `Directive.freeText?`: the text in a directive that can be anything.
* `Directive.inside`: what a directive says behind its marker.
* `Directive.IsSpelled`: whether what is granted is told by letters of permissions.

## Main results

* `Directive.ofText?_text`: a directive is read back.
* `Directive.pieces_body`: the parts of a comment are those of its directives.
* `Tree.ofComment?_comment?_iff`: when the comment of a node is read back.
-/

namespace ContentTree

namespace Directive

variable {d : Directive} {ds : List Directive} {a s : String} {c : Char}

/-! ### What directives say -/

/-- The text in a directive that can be anything. -/
def freeText? : Directive → Option String
  | audience _ => none
  | owner name => some name
  | grant principal _ => some principal
  | link path => some path
  | pageLink path => some path
  | content contentType => some contentType
  | showWhen condition => some condition
  | hideWhen condition => some condition

/-- What is granted is told by letters of permissions. -/
def IsSpelled : Directive → Prop
  | grant _ letters => ∀ c ∈ letters.toList, ∃ p : Permission, p.letter = c
  | _ => True

/-- What a directive says behind its marker. -/
def inside (d : Directive) : List Char :=
  d.word.toList ++ d.argument?.elim [] fun a => '(' :: (a.toList ++ [')'])

theorem toList_text (d : Directive) : d.text.toList = marker.toList ++ d.inside := by
  rw [text, inside]
  cases d.argument? <;> simp [String.toList_append]

theorem word_simple (d : Directive) : ',' ∉ d.word.toList ∧ '(' ∉ d.word.toList := by
  cases d with
  | audience a => cases a <;> decide
  | _ => simp only [word]; decide

theorem inside_of_argument? (h : d.argument? = some a) :
    d.inside = d.word.toList ++ '(' :: (a.toList ++ [')']) := by
  rw [inside, h]
  rfl

/-- Letters of permissions are no commas and no blanks. -/
theorem notMem_letters {principal letters : String} (h : (grant principal letters).IsSpelled) :
    ',' ∉ letters.toList ∧ ' ' ∉ letters.toList := by
  have hletter : ∀ p : Permission, p.letter ≠ ',' ∧ p.letter ≠ ' ' := by
    intro p
    cases p <;> decide
  constructor
  all_goals
    intro hc
    obtain ⟨p, hp⟩ := h _ hc
  · exact (hletter p).1 hp
  · exact (hletter p).2 hp

theorem toList_grant (principal letters : String) :
    (principal ++ "," ++ letters).toList = principal.toList ++ ',' :: letters.toList := by
  simp [String.toList_append]

/-! ### Reading a directive back -/

/-- There is no white space around a directive. -/
theorem trimmed_text (d : Directive) : Text.Trimmed d.text.toList where
  ne_nil := by
    rw [toList_text]
    exact List.cons_ne_nil _ _
  head c hc := by
    rw [toList_text] at hc
    obtain rfl : c = '@' := (Option.some.inj hc).symm
    decide
  last := by
    rw [toList_text]
    cases h : d.argument? with
    | some a =>
      rw [inside_of_argument? h, ← List.cons_append, ← List.append_assoc, ← List.append_assoc,
        List.getLast?_concat]
      decide
    | none =>
      cases d with
      | audience a => cases a <;> decide
      | _ => exact nomatch h

/-- A directive is read back. -/
theorem ofText?_text (h : d.IsSpelled) : ofText? d.text = .ok d := by
  rw [ofText?, Text.trim, (trimmed_text d).trimChars_eq, String.ofList_toList, toList_text,
    Text.after?_append]
  cases hargument : d.argument? with
  | none =>
    cases d with
    | audience a => cases a <;> rfl
    | _ => exact nomatch hargument
  | some a =>
    dsimp only
    rw [inside_of_argument? hargument, Text.cut?_append (word_simple d).2]
    dsimp only
    rw [Text.beforeLast?_append]
    dsimp only
    rw [String.ofList_toList, String.ofList_toList]
    cases d with
    | audience => exact nomatch hargument
    | grant principal letters =>
      obtain rfl := Option.some.inj hargument
      have hcut : ofGrantArgument? (principal ++ "," ++ letters) =
          some (grant principal letters) := by
        rw [ofGrantArgument?, toList_grant, Text.cutLast?_append _ (notMem_letters h).1]
        simp
      simp only [word, hcut]
      rfl
    | content | showWhen | hideWhen =>
      obtain rfl := Option.some.inj hargument
      simp only [word, Html.unescapeAttribute, Html.escapeAttribute, String.toList_ofList,
        Html.foldl_escapes_flatMap, String.ofList_toList]
      rfl
    | owner | link | pageLink =>
      obtain rfl := Option.some.inj hargument
      rfl

/-! ### Where dividers stand -/

theorem separator_eq : separator = ',' :: ' ' :: marker.toList := rfl

theorem notMem_separator : ',' ∉ ' ' :: marker.toList := by decide

/-- A divider in a directive stands in what can be anything. -/
theorem infix_inside_iff (h : d.IsSpelled) :
    separator <:+: d.inside ↔ ∃ a ∈ d.freeText?, separator <:+: a.toList := by
  have hargument : ∀ {a : String}, d.argument? = some a →
      (separator <:+: d.inside ↔ separator <:+: a.toList) := by
    intro a ha
    have hword : ',' ∉ d.word.toList ++ ['('] := by simp [(word_simple d).1]
    rw [inside_of_argument? ha, List.append_cons, separator_eq, Text.infix_append_of_notMem hword,
      Text.infix_append_iff (by decide), or_iff_left (Text.not_infix_of_notMem (by decide))]
  have hescape : ∀ text : String,
      separator <:+: (Html.escapeAttribute text).toList ↔ separator <:+: text.toList := by
    intro text
    rw [Html.escapeAttribute, String.toList_ofList, separator_eq]
    exact Html.infix_flatMap_escapeAttributeChar (by decide) (by decide)
  cases d with
  | audience a =>
    have hcomma : ',' ∉ (audience a).inside := by
      rw [inside]
      simpa [argument?] using (word_simple (audience a)).1
    have hnone : ¬ separator <:+: (audience a).inside := by
      rw [separator_eq]
      exact Text.not_infix_of_notMem hcomma
    simp [freeText?, hnone]
  | grant principal letters =>
    obtain ⟨hcomma, hblank⟩ := notMem_letters h
    -- Behind the comma before the letters there is no blank.
    have hletters : ¬ separator <:+: ',' :: letters.toList := by
      rw [separator_eq, List.infix_cons_iff, not_or, List.cons_prefix_cons]
      refine ⟨fun hpre => hblank ?_, Text.not_infix_of_notMem hcomma⟩
      exact hpre.2.subset List.mem_cons_self
    rw [hargument rfl, toList_grant, separator_eq,
      Text.infix_append_iff (by simpa using notMem_separator), ← separator_eq, or_iff_left hletters]
    simp [freeText?]
  | content | showWhen | hideWhen =>
    rw [hargument rfl, hescape]
    simp [freeText?]
  | owner | link | pageLink =>
    rw [hargument rfl]
    simp [freeText?]

/-! ### Comments -/

/-- The inside of the comment for several directives. -/
def body (ds : List Directive) : List Char :=
  (String.intercalate ", " (ds.map text)).toList

theorem body_singleton (d : Directive) : body [d] = d.text.toList := by
  rw [body, List.map_singleton, String.intercalate_singleton]

theorem body_cons_cons (d d' : Directive) (ds : List Directive) :
    body (d :: d' :: ds) = d.text.toList ++ (", ".toList ++ body (d' :: ds)) := by
  rw [body, List.map_cons, List.map_cons, String.intercalate_cons_cons, ← List.map_cons, body,
    String.toList_append, String.toList_append, List.append_assoc]

theorem body_cons (d : Directive) (ds : List Directive) :
    body (d :: ds) = d.text.toList ++ (ds.map inside).flatMap (separator ++ ·) := by
  induction ds generalizing d with
  | nil => rw [body_singleton, List.map_nil, List.flatMap_nil, List.append_nil]
  | cons d' ds ih =>
    rw [body_cons_cons, ih, List.map_cons, List.flatMap_cons, toList_text d', separator,
      String.toList_append]
    simp only [List.append_assoc]

theorem trimmed_body (d : Directive) (ds : List Directive) : Text.Trimmed (body (d :: ds)) := by
  induction ds generalizing d with
  | nil => exact body_singleton d ▸ trimmed_text d
  | cons d' ds ih => exact body_cons_cons d d' ds ▸ (trimmed_text d).append (ih d') _

/-- The parts of a comment are those of its directives. -/
theorem pieces_body (d : Directive) (ds : List Directive) :
    Text.pieces separator (body (d :: ds)) = Text.pieces separator d.text.toList ++
      (ds.map inside).flatMap (Text.pieces separator) := by
  rw [body_cons, separator_eq, Text.pieces_flatMap notMem_separator]

/-- What is read of a comment is what stands between its ends. -/
theorem ofComment?_comment? (hne : ds ≠ []) (hs : comment? ds = some s) :
    ofComment? s = ofBody? (body ds) := by
  cases ds with
  | nil => exact absurd rfl hne
  | cons d ds =>
    have hlist : s.toList =
        "<!--".toList ++ ([' '] ++ (body (d :: ds) ++ [' ']) ++ "-->".toList) := by
      rw [← Option.some.inj hs]
      simp [body, String.toList_append]
    have htrimmed : Text.Trimmed s.toList := by
      rw [hlist]
      exact Text.Trimmed.append ⟨by decide, by decide, by decide⟩
        ⟨by decide, by decide, by decide⟩ _
    have hbody : Text.trimChars ([' '] ++ (body (d :: ds) ++ [' '])) = body (d :: ds) :=
      (trimmed_body d ds).trimChars_append (by decide) (by decide)
    rw [ofComment?, Text.trim, htrimmed.trimChars_eq, String.ofList_toList, hlist,
      Text.after?_append]
    simp only [Option.bind_eq_bind, Option.bind_some, Text.before?_append, hbody]

/-! ### Reading a comment back -/

/-- There are as many directives in a comment as there are parts. -/
theorem length_of_ofBody? {body : List Char} (h : ofBody? body = .ok ds) :
    ds.length = (Text.pieces separator body).length := by
  rw [ofBody?] at h
  split at h
  next hpieces => exact absurd hpieces (Text.pieces_ne_nil _ _)
  next first others hpieces =>
    rw [length_of_mapM_eq_ok h, hpieces]
    simp

/-- Where no directive holds a divider, the directives are read back. -/
theorem ofBody?_body (hd : ¬ separator <:+: d.text.toList)
    (hds : ∀ d' ∈ ds, ¬ separator <:+: d'.inside) (h : ∀ d' ∈ d :: ds, d'.IsSpelled) :
    ofBody? (body (d :: ds)) = .ok (d :: ds) := by
  have hothers : (ds.map inside).flatMap (Text.pieces separator) = ds.map inside := by
    rw [List.flatMap_map, List.map_eq_flatMap]
    exact List.flatMap_congr fun d' hd' => Text.pieces_of_absent (hds d' hd')
  have hparts : d.text.toList :: (ds.map inside).map (marker.toList ++ ·) =
      (d :: ds).map fun d => d.text.toList := by
    rw [List.map_cons, List.map_map]
    exact congrArg _ (List.map_congr_left fun d' _ => (toList_text d').symm)
  rw [ofBody?, pieces_body, Text.pieces_of_absent hd, hothers]
  dsimp only [List.singleton_append]
  rw [hparts]
  exact mapM_map_eq_ok fun d' hd' => by rw [String.ofList_toList, ofText?_text (h d' hd')]

/-- Where every text falls into one part at least, and all together into no more parts than there
are texts, each is its own only part. -/
theorem length_eq_one_of_flatMap {α β : Type} {f : α → List β} (hf : ∀ a, f a ≠ []) {as : List α}
    (h : (as.flatMap f).length ≤ as.length) :
    (as.flatMap f).length = as.length ∧ ∀ a ∈ as, (f a).length = 1 := by
  induction as with
  | nil => simp
  | cons a as ih =>
    have ha := List.length_pos_iff.mpr (hf a)
    have hlower : as.length ≤ (as.flatMap f).length := by
      by_contra hlt
      have := (ih (by omega)).1
      omega
    rw [List.flatMap_cons, List.length_append, List.length_cons] at h ⊢
    obtain ⟨hlength, hall⟩ := ih (by omega)
    rw [List.forall_mem_cons]
    exact ⟨by omega, by omega, hall⟩

/-- Where the directives are read back, none of them holds a divider. -/
theorem not_infix_of_ofBody? (h : ofBody? (body (d :: ds)) = .ok (d :: ds)) :
    ¬ separator <:+: d.text.toList ∧ ∀ d' ∈ ds, ¬ separator <:+: d'.inside := by
  have hlength := length_of_ofBody? h
  rw [pieces_body, List.length_append, List.length_cons, ← List.length_map inside] at hlength
  have hparts := List.length_pos_iff.mpr (Text.pieces_ne_nil separator d.text.toList)
  have hle : ((ds.map inside).flatMap (Text.pieces separator)).length ≤ (ds.map inside).length := by
    omega
  obtain ⟨heq, hall⟩ := length_eq_one_of_flatMap (Text.pieces_ne_nil separator) hle
  have hfirst : (Text.pieces separator d.text.toList).length = 1 := by omega
  rw [List.forall_mem_map] at hall
  exact ⟨(Text.length_pieces_eq_one_iff notMem_separator).mp hfirst,
    fun d' hd' => (Text.length_pieces_eq_one_iff notMem_separator).mp (hall d' hd')⟩

/-- The directives of a comment are read back if no text that can be anything holds a divider, and
only then. -/
theorem ofBody?_body_iff (hne : ds ≠ []) (h : ∀ d ∈ ds, d.IsSpelled) :
    ofBody? (body ds) = .ok ds ↔
      ∀ d ∈ ds, ∀ a ∈ d.freeText?, Text.contains a (", " ++ marker) = false := by
  have hfree : ∀ d ∈ ds, ¬ separator <:+: d.inside ↔
      ∀ a ∈ d.freeText?, Text.contains a (", " ++ marker) = false := by
    intro d hd
    rw [infix_inside_iff (h d hd)]
    simp only [not_exists, not_and, Text.contains, ← Bool.not_eq_true, Text.occurs_iff_infix,
      separator]
  cases ds with
  | nil => exact absurd rfl hne
  | cons d ds =>
    have hmarker : ',' ∉ marker.toList := by decide
    have htext : separator <:+: d.text.toList ↔ separator <:+: d.inside := by
      rw [toList_text, separator_eq, Text.infix_append_of_notMem hmarker]
    rw [← forall₂_congr hfree, List.forall_mem_cons, ← htext]
    exact ⟨not_infix_of_ofBody?, fun hin => ofBody?_body hin.1 hin.2 h⟩

/-- The directives of a node tell what is granted by letters of permissions. -/
theorem isSpelled_of_mem_ofNode {page : Audience} {n : Node} (h : d ∈ ofNode page n) :
    d.IsSpelled := by
  cases d with
  | grant principal letters =>
    intro c hc
    have hgrant : grant principal letters ∈ n.properties.grants.filterMap ofGrant? := by
      have htext : grant principal letters ∉ ofText n := by
        rw [ofText]
        split <;> simp
      have hlink : ∀ l : Link, ofLink l ≠ grant principal letters := by
        intro l
        rw [ofLink]
        split <;> simp
      simpa [ofNode, htext, hlink] using h
    obtain ⟨g, -, hg⟩ := List.mem_filterMap.mp hgrant
    rw [ofGrant?] at hg
    split at hg
    next => exact nomatch hg
    next =>
      obtain ⟨-, rfl⟩ := Directive.grant.inj (Option.some.inj hg)
      rw [String.toList_ofList, List.mem_map] at hc
      obtain ⟨p, -, hp⟩ := hc
      exact ⟨p, hp⟩
  | _ => trivial

end Directive

namespace Tree

theorem isSpelled_directives (t : Tree) (id : NodeId) :
    ∀ d ∈ t.directives id, d.IsSpelled := by
  intro d hd
  rw [directives] at hd
  split at hd
  · exact Directive.isSpelled_of_mem_ofNode hd
  · exact nomatch hd

/-- Where an export tells something about a node, the comment before the node is read back as what
has been told, unless a text in it holds what divides two directives, a comma and a blank with the
marker behind them: the name of the owner or of somebody to whom something is granted, the path of
a link, the type of a text or a condition. If one does, it is not read back. -/
theorem ofComment?_comment?_iff (t : Tree) (id : NodeId) (hne : t.directives id ≠ []) :
    ∃ s, Directive.comment? (t.directives id) = some s ∧
      (Directive.ofComment? s = .ok (t.directives id) ↔
        ∀ d ∈ t.directives id, ∀ a ∈ d.freeText?, Text.contains a ", @pagetree:" = false) := by
  obtain ⟨s, hs⟩ : ∃ s, Directive.comment? (t.directives id) = some s := by
    cases hds : t.directives id with
    | nil => exact absurd hds hne
    | cons d ds => exact ⟨_, rfl⟩
  refine ⟨s, hs, ?_⟩
  rw [Directive.ofComment?_comment? hne hs]
  exact Directive.ofBody?_body_iff hne (t.isSpelled_directives id)

/-- A text with parentheses, commas, blanks, quotes and escapes in what is told about it, and one
whose owner has a name with a divider in it. -/
def annotatedPage : Snapshot :=
  .mk (some 1) { kind := .page "home" 0 false } none
    [.mk (some 2)
      { kind := .text "# Title" (some "text/markdown; a=\"(b)\", ")
        properties :=
          { visibleToUsers := true
            owner := some " ann), (&lt;b> --> "
            grants := [⟨"editors, all", { read := true, write := true }⟩]
            showConditions := some "me.name == \"&amp;quot;\" && @pagetree:" } } none [],
    .mk (some 3)
      { kind := .text "" none, properties := { owner := some "bob, @pagetree:public" } } none []]

/-- The first text is read back, and the second is not. -/
theorem ofComment?_comment?_annotatedPage :
    let t := (({} : Tree).load annotatedPage).2
    (t.directives 2).length = 5 ∧
      (∃ s, Directive.comment? (t.directives 2) = some s ∧
        Directive.ofComment? s = .ok (t.directives 2)) ∧
      ∃ s, Directive.comment? (t.directives 3) = some s ∧
        Directive.ofComment? s ≠ .ok (t.directives 3) := by
  intro t
  have hlength : (t.directives 2).length = 5 ∧ (t.directives 3).length = 1 := by decide +kernel
  have hfree : (∀ d ∈ t.directives 2, ∀ a ∈ d.freeText?,
        Text.contains a ", @pagetree:" = false) ∧
      ∃ d ∈ t.directives 3, ∃ a ∈ d.freeText?, Text.contains a ", @pagetree:" = true := by
    decide +kernel
  have hne : t.directives 2 ≠ [] := List.ne_nil_of_length_pos (by omega)
  have hne' : t.directives 3 ≠ [] := List.ne_nil_of_length_pos (by omega)
  obtain ⟨s, hs, hiff⟩ := t.ofComment?_comment?_iff 2 hne
  obtain ⟨s', hs', hiff'⟩ := t.ofComment?_comment?_iff 3 hne'
  refine ⟨hlength.1, ⟨s, hs, hiff.mpr hfree.1⟩, s', hs', fun h => ?_⟩
  obtain ⟨d, hd, a, ha, hcontains⟩ := hfree.2
  exact Bool.false_ne_true ((hiff'.mp h d hd a ha).symm.trans hcontains)

end Tree

end ContentTree
