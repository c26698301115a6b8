import ContentTree.Proofs.Draft.Documents
import ContentTree.Proofs.Edit.Composed

/-!
# Joining texts takes children with permission

Joining texts is examined parent by parent while the operation is under way. A parent is therefore
examined as it is then, and not as it was before: texts before it may have been joined, which gives
it another index, and it may be a text with something below it that has itself become longer. What
has gone to the trash in the meantime is left alone, because it belongs to no document.

## Main definitions

* `Node.Stretches`: what can become of a node before the texts below it are joined.
* `Draft.Intact`: a node has all its children, or it was found to be writable.
* `Draft.Joins`: what joining texts at and below a node does to a draft.

## Main results

* `Edit.joins_joinTexts`, `Edit.joins_normalizeBranch`: two texts are joined, and those of a branch.
* `Edit.intact_normalize`: joined texts were taken from parents that were writable.
-/

namespace ContentTree

open Relation

/-! ### Nodes that are stretched -/

/-- A kind that may have become that of a longer text. -/
def Kind.Stretches (k k' : Kind) : Prop :=
  k' = k ∨ ∃ start more contentType,
    k = .text start contentType ∧ k' = .text (start ++ more) contentType

/-- What can become of a node before the texts below it are joined: it may have another index, and
if it is a text, a longer content. -/
def Node.Stretches (n m : Node) : Prop :=
  ∃ kind position, n.kind.Stretches kind ∧ m = { n with kind, position }

theorem Kind.Stretches.trans {k k' k'' : Kind} (h : k.Stretches k') (h' : k'.Stretches k'') :
    k.Stretches k'' := by
  rcases h with rfl | ⟨start, more, contentType, rfl, rfl⟩
  · exact h'
  · rcases h' with rfl | ⟨_, more', _, heq, rfl⟩
    · exact .inr ⟨start, more, contentType, rfl, rfl⟩
    · obtain ⟨rfl, rfl⟩ := Kind.text.inj heq
      exact .inr ⟨start, more ++ more', contentType, rfl, by rw [String.append_assoc]⟩

theorem Kind.Stretches.same {k k' : Kind} (h : k.Stretches k') : k.same k' = true := by
  rcases h with rfl | ⟨_, _, _, rfl, rfl⟩
  · exact Kind.same_refl _
  · rfl

namespace Node.Stretches

variable {n m m' : Node}

theorem refl (n : Node) : n.Stretches n := ⟨n.kind, n.position, .inl rfl, rfl⟩

theorem trans (h : n.Stretches m) (h' : m.Stretches m') : n.Stretches m' := by
  obtain ⟨kind, position, hkind, rfl⟩ := h
  obtain ⟨kind', position', hkind', rfl⟩ := h'
  exact ⟨kind', position', hkind.trans hkind', rfl⟩

end Node.Stretches

/-- The principal may write what has become of a node before the texts below it are joined. -/
def Node.WritableStretched (n : Node) (e : Editor) : Prop :=
  ∃ m, n.Stretches m ∧ e.access.canWrite e.principal m = true

namespace Draft

variable {d d' : Draft} {e : Editor} {t : Tree} {z p c id : NodeId} {n m : Node}

/-- A node may lose children where the principal was found to be allowed to write it. Before that it
has all its children, and unless it is in the trash, it can only have been stretched. -/
def Intact (e : Editor) (z : NodeId) (n : Node) (d : Draft) : Prop :=
  n.WritableStretched e ∨
    ∃ m, d.tree.node? z = some m ∧ m.children = n.children ∧
      (d.tree.document? z ≠ none → n.Stretches m)

/-- No node gets a new parent, and nodes at and above a node of a tree keep their documents. -/
structure Narrows (e : Editor) (t : Tree) (root : NodeId) (d d' : Draft) : Prop where
  changes : d.Changes e d'
  under : ∀ {x y}, d'.tree.Under x y → d.tree.Under x y
  document : ∀ x, t.Within root x → d'.tree.document? x = d.tree.document? x

/-- What joining texts at and below a node does to a draft: it only narrows it, and children are
lost where the principal may write. -/
structure Joins (e : Editor) (z : NodeId) (n : Node) (t : Tree) (root : NodeId) (d d' : Draft) :
    Prop extends Narrows e t root d d' where
  intact : Intact e z n d → Intact e z n d'

instance {root : NodeId} : IsPreorder Draft (Narrows e t root) where
  refl _ := ⟨.refl, fun h => h, fun _ _ => rfl⟩
  trans _ _ _ h h' := ⟨h.changes.trans h'.changes, fun hu => h.under (h'.under hu),
    fun x hx => (h'.document x hx).trans (h.document x hx)⟩

instance {root : NodeId} : IsPreorder Draft (Joins e z n t root) where
  refl d := ⟨refl_of (Narrows e t root) d, fun h => h⟩
  trans _ _ _ h h' := ⟨trans_of (Narrows e t root) h.toNarrows h'.toNarrows, fun hi =>
    h'.intact (h.intact hi)⟩

/-- What is joined below a child is joined below its parent. -/
theorem Joins.of_under {child parent : NodeId} (h : Joins e z n t child d d')
    (hc : t.Under child parent) : Joins e z n t parent d d' where
  changes := h.changes
  under := h.under
  document x hx := h.document x (.head hc hx)
  intact := h.intact

/-! ### A text takes over the content of another -/

section SetContent

variable {first : NodeId} {head : Node} {content : Content}

theorem recast_of_stretches (hcontent : content = { head.toContent with kind := content.kind })
    (hkind : head.kind.Stretches content.kind) :
    recast content head = { head with kind := content.kind } := by
  rcases hkind with heq | ⟨start, more, contentType, hstart, hmore⟩
  · rw [hcontent, heq]
    cases hk : head.kind <;> simp [recast, hk, Kind.version?, Kind.withVersion]
  · rw [hcontent, hmore]
    simp [recast, hstart, Kind.version?]

theorem document?_setContent (h : d.tree.Keyed) (hfirst : d.tree.node? first = some head)
    (hpage : content.kind.isPage = head.kind.isPage) (x : NodeId) :
    (d.setContent first content).tree.document? x = d.tree.document? x := by
  refine Tree.document?_of_map (rewritten_setContent h first content).node? (fun y m hm => ?_) x
  unfold at_
  split
  · next hy =>
    obtain rfl := Option.some.inj (hfirst.symm.trans (hy ▸ (h hm).symm ▸ hm))
    exact ⟨rfl, rfl, (isPage_recast content head).trans hpage⟩
  · exact ⟨rfl, rfl, rfl⟩

theorem intact_setContent (h : d.tree.Keyed) (hfirst : d.tree.node? first = some head)
    (hcontent : content = { head.toContent with kind := content.kind })
    (hkind : head.kind.Stretches content.kind) (hintact : Intact e z n d) :
    Intact e z n (d.setContent first content) := by
  have hg := rewritten_setContent h first content
  have hpage := Kind.isPage_eq_of_same hkind.same
  rcases hintact with hwritable | ⟨m, hm, hchildren, hstretched⟩
  · exact .inl hwritable
  · rw [Intact, document?_setContent h hfirst hpage, hg.node?_of_some hm, at_]
    split
    · next hid =>
      obtain rfl := Option.some.inj (hfirst.symm.trans (hid ▸ (h hm).symm ▸ hm))
      rw [recast_of_stretches hcontent hkind]
      refine .inr ⟨_, rfl, hchildren, fun hdocument => ?_⟩
      exact (hstretched hdocument).trans ⟨content.kind, head.position, hkind, rfl⟩
    · exact .inr ⟨m, rfl, hchildren, hstretched⟩

theorem narrows_setContent {root : NodeId} (h : d.tree.Keyed)
    (hfirst : d.tree.node? first = some head) (hkind : head.kind.Stretches content.kind)
    (hw : e.Writes) : Narrows e t root d (d.setContent first content) where
  changes := .single (.recast hfirst hkind.same hw)
  under {x _} hu :=
    (parent?_of_at (rewritten_setContent h first content).node? (fun _ => rfl) x).symm.trans hu
  document x _ := document?_setContent h hfirst (Kind.isPage_eq_of_same hkind.same) x

end SetContent

/-! ### A text goes to the trash -/

/-- What becomes of a node when a child leaves another one: unless it is the child, it has at most
another index. -/
theorem exists_node_detach (h : d.tree.WellFormed) (hz : d.tree.node? z = some n)
    (hzc : ¬ d.tree.Under c z) :
    ∃ m, (d.detach c).tree.node? z = some m ∧ m.children = n.children ∧ m.kind = n.kind ∧
      (z ≠ c → ∃ position, m = { n with position }) := by
  cases hparent : d.tree.parent? c with
  | none =>
    rw [detach_of_root hparent]
    exact ⟨n, hz, rfl, rfl, fun _ => ⟨n.position, rfl⟩⟩
  | some p =>
    obtain ⟨m, hm, hp⟩ := Tree.Under.exists_node hparent
    have hzp : n.id ≠ p := by
      rintro rfl
      exact hzc (h.keyed hz ▸ hparent)
    refine ⟨_, (rewritten_detach h hm hp).node?_of_some hz, if_neg hzp, rfl, fun hne => ?_⟩
    have hid : n.id ≠ c := h.keyed hz ▸ hne
    exact ⟨(detached p c m.position n).position, by simp [detached, hzp, hid]⟩

/-- What becomes of a node when another one goes to the trash: unless it goes there as well, it has
at most another index. -/
theorem exists_node_discard (h : d.tree.WellFormed) (hc : d.tree.node? c = some m)
    (hpage : m.kind.isPage = false) (hz : d.tree.node? z = some n) (hzc : ¬ d.tree.Under c z) :
    ∃ m, (d.discard c).tree.node? z = some m ∧ m.children = n.children ∧
      ((d.discard c).tree.document? z ≠ none → ∃ position, m = { n with position }) := by
  obtain ⟨n', hn', hchildren, hkind, hrest⟩ := exists_node_detach h hz hzc
  have hwf := h.detach c
  have hg := rewritten_setDocument hwf.keyed c none
  have hmem : z ∈ (d.detach c).tree.branchIds c ↔ (d.detach c).tree.Within z c :=
    hwf.mem_branchIds_iff hn'
  refine ⟨_, hg.node?_of_some hn', ?_, fun hdoc => ?_⟩
  · rw [← hchildren]
    unfold documented
    split <;> rfl
  by_cases hw : (d.detach c).tree.Within z c
  · -- Whatever goes to the trash is no page, and belongs to no document then.
    have hnpage : n'.kind.isPage = false := by
      rcases hw.eq_or_below with rfl | hb
      · obtain rfl := Option.some.inj (hz.symm.trans hc)
        rw [hkind, hpage]
      · obtain ⟨p, hp, -⟩ := hb.exists_under
        exact hwf.not_page_of_under hp hn'
    refine absurd ?_ hdoc
    rw [discard, Tree.document?_eq (hg.node?_of_some hn'), documented,
      if_pos ⟨(hwf.keyed hn').symm ▸ hmem.mpr hw, hnpage⟩, Node.owningPage, if_neg]
    simp [hnpage]
  · have hne : z ≠ c := by
      rintro rfl
      exact hw .refl
    rw [documented, if_neg fun hin => hw (hmem.mp ((hwf.keyed hn') ▸ hin.1))]
    exact hrest hne


/-- A node other than a page belongs to the document it has been assigned to. -/
theorem document?_setDocument_root (h : d.tree.WellFormed) (hn : d.tree.node? id = some n)
    (hpage : n.kind.isPage = false) (document : Option NodeId) :
    (d.setDocument id document).tree.document? id = document := by
  have hin : n.id ∈ d.tree.branchIds id := by
    rw [h.keyed hn]
    exact (h.mem_branchIds_iff hn).mpr .refl
  rw [Tree.document?_eq ((rewritten_setDocument h.keyed id document).node?_of_some hn),
    documented, if_pos ⟨hin, hpage⟩, Node.owningPage, if_neg]
  simp [hpage]

/-- Whatever does not go to the trash stays in its document. -/
theorem document?_discard_of_not_within (h : d.tree.WellFormed) {x : NodeId}
    (hx : ¬ d.tree.Within x c) : (d.discard c).tree.document? x = d.tree.document? x := by
  have hwf := h.detach c
  have hout : ¬ (d.detach c).tree.Within x c := hx ∘ within_of_within_detach h
  rw [← document?_detach h c x, discard, Tree.document?, Tree.document?,
    (rewritten_setDocument hwf.keyed c none).node?]
  cases hn : (d.detach c).tree.node? x with
  | none => rfl
  | some m =>
    rw [Option.map_some, documented, if_neg fun hin => hout ?_]
    exact (hwf.mem_branchIds_iff hn).mp (hwf.keyed hn ▸ hin.1)

theorem narrows_discard {parent second : NodeId} (ht : t.WellFormed) (h : d.tree.WellFormed)
    (hunder : ∀ {x y}, d.tree.Under x y → t.Under x y) (hsecond : t.Under second parent)
    (hm : d.tree.node? second = some m) (hpage : m.kind.isPage = false) (hw : e.Writes) :
    Narrows e t parent d (d.discard second) where
  changes := .single (.discard hm hpage hw)
  under hu := by
    rw [discard, under_setDocument (h.detach second), under_detach h] at hu
    exact hu.2
  document x hx := by
    refine document?_discard_of_not_within h fun hin => ?_
    -- The node would stand above itself.
    have hin' : t.Within x second := ReflTransGen.mono (fun _ _ hu => hunder hu) _ _ hin
    exact ht.acyclic x ((TransGen.tail' hin' hsecond).trans_left hx)

theorem intact_discard (h : d.tree.WellFormed) (hc : d.tree.node? c = some m)
    (hpage : m.kind.isPage = false) (hzc : ¬ d.tree.Under c z) (hintact : Intact e z n d) :
    Intact e z n (d.discard c) := by
  rcases hintact with hwritable | ⟨m', hm', hchildren, hstretched⟩
  · exact .inl hwritable
  · obtain ⟨m'', hm'', hchildren', hrest⟩ := exists_node_discard h hc hpage hm' hzc
    refine .inr ⟨m'', hm'', hchildren'.trans hchildren, fun hdocument => ?_⟩
    obtain ⟨position, rfl⟩ := hrest hdocument
    rw [Tree.document?_eq hm''] at hdocument
    have hdocument' : d.tree.document? z ≠ none := by
      rw [Tree.document?_eq hm']
      exact hdocument
    exact (hstretched hdocument').trans ⟨_, position, .inl rfl, rfl⟩

end Draft

namespace Edit

open ContentTree.Draft (Intact Joins Narrows)

variable {e : Editor} {d d' : Draft} {t : Tree} {z parent first second : NodeId} {n : Node}

/-- The content of two texts side by side. -/
theorem stretches_joined (head tail : Kind) :
    head.Stretches (match head, tail with
      | .text start contentType, .text rest _ => .text (start ++ rest) contentType
      | kind, _ => kind) := by
  split
  · next start contentType rest _ => exact .inr ⟨start, rest, contentType, rfl, rfl⟩
  · exact .inl rfl

theorem joins_joinTexts (ht : t.WellFormed) (hd : d.tree.Sound)
    (hunder : ∀ {x y}, d.tree.Under x y → t.Under x y) (hsecond : t.Under second parent)
    (htext : ∃ m, d.tree.node? second = some m ∧ m.kind.isText = true)
    (hdocument : d.tree.document? parent ≠ none) :
    Leads (Joins e z n t parent) e d (joinTexts parent first second) := by
  refine .check_bind fun content h => .write ?_
  simp only [bind_eq_ok, Tree.require_eq_ok] at h
  obtain ⟨head, hhead, tail, -, _, hmay, _, -, hret⟩ := h
  have hw := Editor.writes_of_mayWrite hmay
  obtain ⟨m, hm, hk⟩ := htext
  have hkind : head.kind.Stretches content.kind := by
    rw [← Except.ok.inj hret]
    exact stretches_joined head.kind tail.kind
  have hcontent : content = { head.toContent with kind := content.kind } := by
    rw [← Except.ok.inj hret]
  have hrecast : Narrows e t parent d (d.setContent first content) :=
    Draft.narrows_setContent hd.keyed hhead hkind hw
  have hd' := hrecast.changes.sound hd
  obtain ⟨m', hm', hsame⟩ := hrecast.changes.keepsKinds hd hm
  have hpage : m'.kind.isPage = false := by
    rw [Kind.isPage_eq_of_same hsame, isPage_of_isText hk]
  refine ⟨trans_of (Narrows e t parent) hrecast (Draft.narrows_discard ht hd'.toWellFormed
    (fun hu => hunder (hrecast.under hu)) hsecond hm' hpage hw), fun hintact => ?_⟩
  by_cases hz : z = parent
  · -- The parent was examined just now, and it is not in the trash.
    obtain ⟨q, hq, hqw⟩ := Editor.mayWrite_eq_ok.mp hmay
    rcases hintact with hwritable | ⟨q', hq', -, hstretched⟩
    · exact .inl hwritable
    · obtain rfl := Option.some.inj (hq.symm.trans (hz ▸ hq'))
      exact .inl ⟨q, hstretched (hz ▸ hdocument), hqw⟩
  · refine Draft.intact_discard hd'.toWellFormed hm' hpage (fun hu => ?_)
      (Draft.intact_setContent hd.keyed hhead hcontent hkind hintact)
    exact hz ((hunder (hrecast.under hu)).eq hsecond)

theorem joins_normalizeBranch (ht : t.WellFormed) (b : Branch) (hd : d.tree.Sound)
    (hb : b.Shows t) (hknown : Known d.tree b)
    (hunder : ∀ {x y}, d.tree.Under x y → t.Under x y) :
    Leads (Joins e z n t b.id) e d (normalizeBranch b) := by
  refine leads_normalizeBranch (R := Joins e z n t) (P := fun b d => d.tree.Sound ∧ b.Shows t ∧
    Known d.tree b ∧ ∀ {x y}, d.tree.Under x y → t.Under x y) ?_ ?_ ?_ b d ⟨hd, hb, hknown, hunder⟩
  · rintro n cs c d d' ⟨hd, hb, hknown, hunder⟩ hc hj
    exact ⟨hj.changes.sound hd, hb.of_mem_children hc,
      (hknown.of_mem_children hc).mono (hj.changes.keepsKinds hd), fun hu => hunder (hj.under hu)⟩
  · rintro n cs c d d' d'' ⟨-, hb, -⟩ hc hj
    exact hj.of_under (hb.under_of_mem_children ht hc)
  · rintro n cs c d d' first ⟨hd, hb, hknown, hunder⟩ hdocument hc htext hj
    refine joins_joinTexts ht (hj.changes.sound hd) (fun hu => hunder (hj.under hu))
      (hb.under_of_mem_children ht hc)
      ((hknown.mono (hj.changes.keepsKinds hd)).exists_text hc htext) ?_
    rwa [hj.document n.id .refl]

/-- Texts are taken only from parents that the principal may write when they are joined. -/
theorem intact_normalize (hd : d.tree.Sound) (hn : d.tree.node? z = some n) (id : NodeId) :
    Intact e z n ((normalize id).run e d).2 := by
  have hintact : Intact e z n d := .inr ⟨n, hn, rfl, fun _ => .refl n⟩
  have hwf := hd.toWellFormed
  rw [normalize, run_bind, run_tree]
  dsimp only
  cases hb : d.tree.branch? id with
  | none => exact hintact
  | some b =>
    have hshows := (hwf.branch?_eq_some_iff.mp hb).2
    exact (joins_normalizeBranch hwf b hd hshows (known_of_shows hshows) fun hu => hu).intact
      hintact

end Edit

end ContentTree
