import ContentTree.Edit.Document
import ContentTree.Edit.Insert
import ContentTree.Edit.Normalize
import ContentTree.Proofs.Draft.Change

/-!
# Operations make changes

Whatever an operation does to a draft, and whether or not it is refused in the end, it does by
changes. Edits are taken apart step by step: a refusal ends an edit with the draft as it is, and
what an examination has found is known to the steps after it.

## Main definitions

* `Edit.Leads`: what an edit leaves stands in a relation to what it was given.
* `Edit.Tame`: from a draft on, an edit makes changes only.
* `Edit.Known`: what a branch says of its nodes holds in a tree, up to the contents of texts.

## Main results

* `Edit.run_bind`, `Edit.run_tryCatch`, `Edit.run_check`: runs of composed edits.
* `Edit.run_bind_eq_ok`: what runs to a result does so in all its parts.
* `Edit.leads_insert`, `Edit.leads_create`, `Edit.leads_normalizeBranch`: what operations lead to,
  by what their steps lead to.
* `Edit.tame_insert`, `Edit.tame_normalize` and others: every operation makes changes only.
-/

namespace ContentTree

open Relation

namespace Edit

variable {α β : Type} {e : Editor} {d d' : Draft}

/-! ### Runs of single steps -/

@[simp] theorem run_pure (a : α) : (pure a : Edit α).run e d = (.ok a, d) := rfl

@[simp] theorem run_throw (err : TreeError) : (throw err : Edit α).run e d = (.error err, d) := rfl

@[simp] theorem run_tree : tree.run e d = (.ok d.tree, d) := rfl

@[simp] theorem run_read : (read : Edit Editor).run e d = (.ok e, d) := rfl

@[simp] theorem run_write (f : Draft → Draft) : (write f).run e d = (.ok (), f d) := rfl

@[simp] theorem run_writeNode (f : Draft → NodeId × Draft) :
    (writeNode f).run e d = (.ok (f d).1, (f d).2) := rfl

theorem run_bind (x : Edit α) (f : α → Edit β) :
    (x >>= f).run e d =
      match x.run e d with
      | (.ok a, d') => (f a).run e d'
      | (.error err, d') => (.error err, d') := by
  simp only [ReaderT.run, bind, ReaderT.bind, ExceptT.bind, ExceptT.mk, StateT.bind]
  rcases x e d with ⟨_ | _, _⟩ <;> rfl

theorem run_tryCatch (x : Edit α) (f : TreeError → Edit α) :
    (tryCatch x f).run e d =
      match x.run e d with
      | (.ok a, d') => (.ok a, d')
      | (.error err, d') => (f err).run e d' := by
  simp only [ReaderT.run, tryCatch, tryCatchThe, MonadExceptOf.tryCatch, ExceptT.tryCatch,
    ExceptT.mk, bind, StateT.bind]
  rcases x e d with ⟨_ | _, _⟩ <;> rfl

theorem run_check (examine : Editor → Tree → Except TreeError α) :
    (check examine).run e d = (examine e d.tree, d) := by
  unfold check
  rw [run_bind]
  simp only [run_read, run_bind, run_tree]
  cases examine e d.tree <;> rfl

/-- What runs to a result does so in all its parts. -/
theorem run_bind_eq_ok {x : Edit α} {f : α → Edit β} {b : β} :
    (x >>= f).run e d = (.ok b, d') ↔
      ∃ a d₁, x.run e d = (.ok a, d₁) ∧ (f a).run e d₁ = (.ok b, d') := by
  rw [run_bind]
  constructor
  · intro h
    generalize x.run e d = r at h ⊢
    obtain ⟨_ | a, d₁⟩ := r
    · exact nomatch (Prod.mk.inj h).1
    · exact ⟨a, d₁, rfl, h⟩
  · rintro ⟨a, d₁, hx, h⟩
    rw [hx]
    exact h

theorem run_check_eq_ok {examine : Editor → Tree → Except TreeError α} {a : α} :
    (check examine).run e d = (.ok a, d') ↔ examine e d.tree = .ok a ∧ d = d' := by
  rw [run_check]
  exact Prod.mk_inj

/-! ### What edits lead to -/

/-- Refused or not, an edit leads to a draft that stands in a relation to the one it was given. -/
def Leads (R : Draft → Draft → Prop) (e : Editor) (d : Draft) (x : Edit α) : Prop :=
  R d (x.run e d).2

namespace Leads

variable {R : Draft → Draft → Prop} [IsPreorder Draft R] {x : Edit α} {f : α → Edit β}
  {examine : Editor → Tree → Except TreeError α}

theorem pure (a : α) : Leads R e d (pure a : Edit α) := refl_of R d

theorem throw (err : TreeError) : Leads R e d (throw err : Edit α) := refl_of R d

theorem bind (hx : Leads R e d x)
    (hf : ∀ a d', x.run e d = (.ok a, d') → R d d' → Leads R e d' (f a)) :
    Leads R e d (x >>= f) := by
  unfold Leads at hx ⊢
  rw [run_bind]
  generalize x.run e d = r at hx hf ⊢
  obtain ⟨_ | a, d'⟩ := r
  · exact hx
  · exact trans_of R hx (hf a d' rfl hx)

theorem tryCatch {f : TreeError → Edit α} (hx : Leads R e d x)
    (hf : ∀ err d', R d d' → Leads R e d' (f err)) : Leads R e d (tryCatch x f) := by
  unfold Leads at hx ⊢
  rw [run_tryCatch]
  generalize x.run e d = r at hx ⊢
  obtain ⟨err | _, d'⟩ := r
  · exact trans_of R hx (hf err d' hx)
  · exact hx

/-- What an examination has found is known afterwards. -/
theorem check_bind (hf : ∀ a, examine e d.tree = .ok a → Leads R e d (f a)) :
    Leads R e d (check examine >>= f) := by
  unfold Leads at hf ⊢
  rw [run_bind, run_check]
  cases h : examine e d.tree with
  | ok a => exact hf a h
  | error err => exact refl_of R d

omit [IsPreorder Draft R] in
theorem tree_bind {f : Tree → Edit β} (hf : Leads R e d (f d.tree)) :
    Leads R e d (tree >>= f) := by
  unfold Leads at hf ⊢
  rwa [run_bind, run_tree]

omit [IsPreorder Draft R] in
theorem read_bind {f : Editor → Edit β} (hf : Leads R e d (f e)) : Leads R e d (read >>= f) := by
  unfold Leads at hf ⊢
  rwa [run_bind, run_read]

omit [IsPreorder Draft R] in
theorem write {f : Draft → Draft} (h : R d (f d)) : Leads R e d (write f) := h

omit [IsPreorder Draft R] in
theorem writeNode {f : Draft → NodeId × Draft} (h : R d (f d).2) : Leads R e d (writeNode f) := h

end Leads

/-! ### Putting nodes into place -/

section Insert

variable {R : Draft → Draft → Prop} [IsPreorder Draft R] {parent child : NodeId}
  {reference : Option NodeId}

theorem leads_insertOne
    (hplace : e.Admits d.tree parent child reference → R d (d.place parent child reference)) :
    Leads R e d (insertOne parent child reference) := by
  refine .check_bind fun _ h => ?_
  split
  · exact .write (hplace (Editor.admits_eq_ok.mp h))
  · exact .pure ()

theorem leads_insertAll (children : List NodeId) : ∀ d : Draft,
    (∀ x ∈ children, ∀ d', R d d' → e.Admits d'.tree parent x reference →
      R d' (d'.place parent x reference)) →
    Leads R e d (insertAll parent reference children) := by
  induction children with
  | nil => exact fun _ _ => .pure ()
  | cons x rest ih =>
    intro d hplace
    refine .bind (leads_insertOne (hplace x List.mem_cons_self d (refl_of R d)))
      fun _ d' _ hd => ih d' fun y hy d'' hd' => ?_
    exact hplace y (List.mem_cons_of_mem _ hy) d'' (trans_of R hd hd')

/-- What is put into place is the node itself, or in the stead of a fragment its children. -/
theorem leads_insert (hplace : ∀ x, x = child ∨ x ∈ d.tree.children child → ∀ d', R d d' →
      e.Admits d'.tree parent x reference → R d' (d'.place parent x reference)) :
    Leads R e d (insert parent child reference) := by
  refine .check_bind fun n h => ?_
  split
  · refine .check_bind fun _ _ => leads_insertAll n.children d fun x hx => hplace x (.inr ?_)
    rwa [Tree.children_eq (Tree.require_eq_ok.mp h)]
  · exact leads_insertOne (hplace child (.inl rfl) d (refl_of R d))

end Insert

/-! ### Creating nodes -/

/-- Creating a node adds it with the principal as its owner, and brings it into its document unless
it is a page. The document was examined before. -/
theorem leads_create {R : Draft → Draft → Prop} [IsPreorder Draft R] {document : Option NodeId}
    {content owned : Content} (howned : owned =
      { content with properties := { content.properties with owner := e.principal.name? } })
    (hpage : content.kind.isPage = true → R d (d.add owned).2)
    (hother : content.kind.isPage = false → (∀ page, document = some page →
        (∃ n, d.tree.node? page = some n ∧ n.kind.isPage = true) ∧ e.Writes) →
      R d ((d.add owned).2.setDocument (d.add owned).1 document)) :
    Leads R e d (create document content) := by
  subst howned
  unfold create
  cases hkind : content.kind.isPage with
  | true => cases document <;> exact .read_bind (.writeNode (hpage hkind))
  | false =>
    cases document with
    | none => exact .read_bind (.writeNode (hother hkind fun _ h => nomatch h))
    | some page =>
      refine .check_bind fun _ h => .read_bind (.writeNode (hother hkind ?_))
      obtain ⟨_, hp, hw⟩ := bind_eq_ok.mp h
      rintro _ ⟨⟩
      exact ⟨Tree.requirePage_eq_ok.mp hp, Editor.writes_of_mayWrite hw⟩

/-! ### Edits from changes -/

instance : IsPreorder Draft (Draft.Changes e) :=
  inferInstanceAs (IsPreorder Draft (ReflTransGen (Draft.Change e)))

/-- From a draft on, an edit makes changes only. -/
def Tame (e : Editor) (d : Draft) (x : Edit α) : Prop := Draft.Changes e d (x.run e d).2

namespace Tame

variable {x : Edit α} {f : α → Edit β} {examine : Editor → Tree → Except TreeError α}

theorem pure (a : α) : Tame e d (pure a : Edit α) := Leads.pure a

theorem throw (err : TreeError) : Tame e d (throw err : Edit α) := Leads.throw err

theorem bind (hx : Tame e d x) (hf : ∀ a d', d.Changes e d' → Tame e d' (f a)) :
    Tame e d (x >>= f) :=
  Leads.bind hx fun a d' _ => hf a d'

theorem tryCatch {f : TreeError → Edit α} (hx : Tame e d x)
    (hf : ∀ err d', d.Changes e d' → Tame e d' (f err)) : Tame e d (tryCatch x f) :=
  Leads.tryCatch hx hf

theorem check_bind (hf : ∀ a, examine e d.tree = .ok a → Tame e d (f a)) :
    Tame e d (check examine >>= f) :=
  Leads.check_bind hf

theorem tree_bind {f : Tree → Edit β} (hf : Tame e d (f d.tree)) : Tame e d (tree >>= f) :=
  Leads.tree_bind hf

theorem read_bind {f : Editor → Edit β} (hf : Tame e d (f e)) : Tame e d (read >>= f) :=
  Leads.read_bind hf

theorem write {f : Draft → Draft} (h : d.Change e (f d)) : Tame e d (write f) :=
  ReflTransGen.single h

theorem write_all {f : Draft → Draft} (h : d.Changes e (f d)) : Tame e d (Edit.write f) := h

theorem writeNode {f : Draft → NodeId × Draft} (h : d.Change e (f d).2) : Tame e d (writeNode f) :=
  ReflTransGen.single h

end Tame

/-! ### The operations -/

section Operations

variable (e d) (parent child id : NodeId) (reference document : Option NodeId) (content : Content)

theorem tame_insert : Tame e d (insert parent child reference) :=
  leads_insert fun _ _ _ _ h => .single (.place h)

theorem tame_append : Tame e d (append parent child) :=
  .bind (tame_insert e d parent child none) fun _ _ _ => .pure child

theorem tame_insertBefore : Tame e d (insertBefore parent child reference) :=
  .bind (tame_insert e d parent child reference) fun _ _ _ => .pure child

theorem tame_replace (old : NodeId) : Tame e d (replace parent child old) := by
  refine .check_bind fun _ h => ?_
  obtain ⟨hw, -⟩ := bind_unit_eq_ok.mp h
  split
  · refine .bind (tame_insert e d parent child (some old)) fun _ _ _ => ?_
    exact .bind (.write (.detach old (Editor.writes_of_mayWrite hw))) fun _ _ _ => .pure old
  · exact .pure old

theorem tame_remove : Tame e d (remove parent child) := by
  refine .check_bind fun _ h => ?_
  obtain ⟨hw, -⟩ := bind_unit_eq_ok.mp h
  exact .bind (.write (.detach child (Editor.writes_of_mayWrite hw))) fun _ _ _ => .pure child

theorem tame_clone (deep : Bool) : Tame e d (clone id deep) := by
  refine .check_bind fun n h => .read_bind (.tree_bind (.writeNode ?_))
  refine .clone (Tree.require_eq_ok.mp h) ?_
  cases deep
  · exact .inr rfl
  · exact .inl rfl

theorem tame_create : Tame e d (create document content) :=
  leads_create rfl (fun hpage => .single (.createPage hpage))
    fun hpage hdocument => .single (.create hpage hdocument)

theorem tame_adopt (page : NodeId) : Tame e d (adopt page id) := by
  refine .check_bind fun _ h => ?_
  simp only [Tree.requirePage_eq_ok, bind_eq_ok, Tree.require_eq_ok, ite_throw_bind_eq_ok] at h
  obtain ⟨_, hpage, _, hw, n, hn, hnp, -⟩ := h
  refine .bind (.write (.adopt hpage hn ?_ (Editor.writes_of_mayWrite hw))) fun _ _ _ => .pure id
  simpa using hnp

theorem tame_importNode (page : NodeId) (deep : Bool) : Tame e d (importNode page id deep) :=
  .check_bind fun _ _ => .bind (tame_clone e d id deep) fun copied d' _ =>
    tame_adopt e d' copied page

theorem tame_trash : Tame e d (trash id) := by
  refine .check_bind fun _ h => ?_
  simp only [bind_eq_ok, Tree.require_eq_ok, ite_throw_bind_eq_ok] at h
  obtain ⟨n, hn, hpage, h⟩ := h
  refine .write (.discard hn (by simpa using hpage) ?_)
  split at h
  · obtain ⟨_, hw, -⟩ := bind_eq_ok.mp h
    exact Editor.writes_of_mayWrite hw
  · exact Editor.writes_of_mayWrite h

theorem tame_update : Tame e d (update id content) := by
  refine .check_bind fun _ h => ?_
  simp only [bind_eq_ok, Tree.require_eq_ok, ite_throw_eq_ok] at h
  obtain ⟨_, hw, n, hn, hk⟩ := h
  exact .write (.recast hn (by simpa using hk) (Editor.writes_of_mayWrite hw))

theorem tame_link (component : NodeId) : Tame e d (link id component) := by
  refine .check_bind fun _ h => ?_
  simp only [bind_eq_ok, Tree.require_eq_ok, ite_throw_bind_eq_ok, ite_throw_eq_ok] at h
  obtain ⟨_, hw, m, hm, c, hc, hne, hk, hchain⟩ := h
  rw [Bool.not_eq_true, Bool.or_eq_false_iff, Option.isSome_eq_false_iff,
    Option.isNone_iff_eq_none] at hchain
  exact .write (.link hm hc hne (by simpa using hk) hchain.1 hchain.2
    (Editor.writes_of_mayWrite hw))

theorem tame_unlink : Tame e d (unlink id) :=
  .check_bind fun _ h => .tree_bind (.bind (.write (.unlink id (Editor.writes_of_mayWrite h)))
    fun _ _ _ => .pure _)

theorem tame_share : Tame e d (share id) := by
  refine .check_bind fun n h => .read_bind (.tree_bind (.writeNode ?_))
  simp only [bind_eq_ok, Tree.require_eq_ok, ite_throw_bind_eq_ok] at h
  obtain ⟨_, hw, hsynced, m, hm, hpage, hret⟩ := h
  obtain rfl := Except.ok.inj hret
  exact .share hm (by simpa using hpage) (by simpa using hsynced) (Editor.writes_of_mayWrite hw)

end Operations

/-! ### Joining texts -/

/-- The nodes of a branch are in a tree, and of the same kinds there. -/
def Known (t : Tree) (b : Branch) : Prop :=
  ∀ n ∈ b.nodes, ∃ m, t.node? n.id = some m ∧ n.kind.same m.kind = true

theorem Known.mono {t t' : Tree} {b : Branch} (h : Known t b) (hk : t.KeepsKinds t') :
    Known t' b := by
  intro n hn
  obtain ⟨m, hm, hsame⟩ := h n hn
  obtain ⟨m', hm', hsame'⟩ := hk hm
  exact ⟨m', hm', Kind.same_trans hsame hsame'⟩

theorem known_of_shows {t : Tree} {b : Branch} (h : b.Shows t) : Known t b := fun n hn =>
  ⟨n, h.node?_of_mem hn, n.kind.same_refl⟩

theorem Known.of_mem_children {t : Tree} {n : Node} {cs : List Branch} {c : Branch}
    (h : Known t ⟨n, cs⟩) (hc : c ∈ cs) : Known t c := by
  intro m hm
  refine h m ?_
  rw [Branch.nodes_mk]
  exact List.mem_cons_of_mem _ (Branch.mem_allNodes.mpr ⟨c, hc, hm⟩)

/-- Texts remain texts when they are joined. -/
theorem same_joined (head tail : Kind) :
    head.same (match head, tail with
      | .text start contentType, .text rest _ => .text (start ++ rest) contentType
      | kind, _ => kind) = true := by
  split
  · rfl
  · exact head.same_refl

theorem isPage_of_isText {k : Kind} (h : k.isText = true) : k.isPage = false := by
  cases k with
  | text => rfl
  | _ => exact nomatch h

theorem tame_joinTexts {parent first second : NodeId} {n : Node} (hd : d.tree.Sound)
    (hn : d.tree.node? second = some n) (hk : n.kind.isText = true) :
    Tame e d (joinTexts parent first second) := by
  refine .check_bind fun content h => .write_all ?_
  simp only [bind_eq_ok, Tree.require_eq_ok] at h
  obtain ⟨head, hhead, tail, -, _, hw, _, -, hret⟩ := h
  have hwrites := Editor.writes_of_mayWrite hw
  have hsame : head.kind.same content.kind = true := by
    rw [← Except.ok.inj hret]
    exact same_joined head.kind tail.kind
  have hrecast : d.Change e (d.setContent first content) := .recast hhead hsame hwrites
  obtain ⟨m, hm, hsame⟩ := hrecast.keepsKinds hd hn
  refine ReflTransGen.head hrecast (.single (.discard hm ?_ hwrites))
  rw [Kind.isPage_eq_of_same hsame, isPage_of_isText hk]

/-! ### Joining everything below a node -/

/-- Joining the runs in a list of children leads where it leads to join two of the children, and
where it leads to do what remains below each of them, if both can be done at any time. -/
theorem leads_joinRuns {R : Draft → Draft → Prop} [IsPreorder Draft R] {parent : NodeId}
    (rest : List Sibling) : ∀ current d,
      (∀ s ∈ current :: rest, ∀ d', R d d' → Leads R e d' s.inner) →
      (∀ s ∈ rest, s.isText = true → ∀ first d', R d d' →
        Leads R e d' (joinTexts parent first s.id)) →
      Leads R e d (joinRuns parent current rest) := by
  induction rest with
  | nil => exact fun current d hinner _ => hinner current List.mem_cons_self d (refl_of R d)
  | cons next rest ih =>
    intro current d hinner hjoin
    -- Whatever is done first, the rest can be done afterwards.
    have hrest : ∀ s, s ∈ current :: next :: rest → ∀ d', R d d' →
        Leads R e d' (joinRuns parent s rest) := by
      intro s hs d' hd
      refine ih s d' (fun s' hs' d'' hd' => ?_) fun s' hs' htext first d'' hd' => ?_
      · refine hinner s' ?_ d'' (trans_of R hd hd')
        rcases List.mem_cons.mp hs' with rfl | hs'
        · exact hs
        · exact List.mem_cons_of_mem _ (List.mem_cons_of_mem _ hs')
      · exact hjoin s' (List.mem_cons_of_mem _ hs') htext first d'' (trans_of R hd hd')
    have hnext : next ∈ current :: next :: rest := List.mem_cons_of_mem _ List.mem_cons_self
    rw [joinRuns]
    split
    · next htexts =>
      have htext : next.isText = true := (Bool.and_eq_true_iff.mp htexts).2
      exact .bind (hjoin next List.mem_cons_self htext current.id d (refl_of R d))
        fun _ d' _ hd => hrest current List.mem_cons_self d' hd
    · exact .bind (hinner current List.mem_cons_self d (refl_of R d))
        fun _ d' _ hd => hrest next hnext d' hd

theorem siblings_eq (cs : List Branch) : normalizeBranch.siblings cs =
    cs.map fun c => ⟨c.id, c.node.kind.isText, normalizeBranch c⟩ := by
  induction cs with
  | nil => rfl
  | cons c cs ih => rw [normalizeBranch.siblings, ih, List.map_cons]

/-- What is known of a branch is known of the branches of its children whenever their turn comes,
and is enough to join two of the children. Then it is enough to join everything in the branch. -/
theorem leads_normalizeBranch {R : NodeId → Draft → Draft → Prop} [∀ p, IsPreorder Draft (R p)]
    {P : Branch → Draft → Prop}
    (hchild : ∀ {n cs c d d'}, P ⟨n, cs⟩ d → c ∈ cs → R n.id d d' → P c d')
    (hup : ∀ {n cs c d d' d''}, P ⟨n, cs⟩ d → c ∈ cs → R c.id d' d'' → R n.id d' d'')
    (hjoin : ∀ {n cs c d d' first}, P ⟨n, cs⟩ d → d.tree.document? n.id ≠ none → c ∈ cs →
      c.node.kind.isText = true → R n.id d d' → Leads (R n.id) e d' (joinTexts n.id first c.id))
    (b : Branch) : ∀ d, P b d → Leads (R b.id) e d (normalizeBranch b) := by
  induction b with
  | mk n cs ih =>
    intro d hd
    rw [normalizeBranch]
    refine .tree_bind ?_
    split
    · next hdocument =>
      have hinner : ∀ s ∈ normalizeBranch.siblings cs, ∀ d', R n.id d d' →
          Leads (R n.id) e d' s.inner := by
        intro s hs d' hd'
        rw [siblings_eq] at hs
        obtain ⟨c, hc, rfl⟩ := List.mem_map.mp hs
        exact hup hd hc (ih c hc d' (hchild hd hc hd'))
      have htexts : ∀ s ∈ normalizeBranch.siblings cs, s.isText = true → ∀ first d', R n.id d d' →
          Leads (R n.id) e d' (joinTexts n.id first s.id) := by
        intro s hs htext first d' hd'
        rw [siblings_eq] at hs
        obtain ⟨c, hc, rfl⟩ := List.mem_map.mp hs
        exact hjoin hd (Option.isSome_iff_ne_none.mp hdocument) hc htext hd'
      cases hs : normalizeBranch.siblings cs with
      | nil => exact .pure ()
      | cons s rest =>
        rw [hs] at hinner htexts
        exact leads_joinRuns rest s d hinner fun s' hs' =>
          htexts s' (List.mem_cons_of_mem _ hs')
    · exact .pure ()

theorem Known.exists_text {t : Tree} {n : Node} {cs : List Branch} {c : Branch}
    (h : Known t ⟨n, cs⟩) (hc : c ∈ cs) (htext : c.node.kind.isText = true) :
    ∃ m, t.node? c.id = some m ∧ m.kind.isText = true := by
  obtain ⟨m, hm, hsame⟩ := h.of_mem_children hc _ c.node_mem_nodes
  exact ⟨m, hm, (Kind.isText_eq_of_same hsame).trans htext⟩

theorem tame_normalizeBranch (b : Branch) (hd : d.tree.Sound) (hknown : Known d.tree b) :
    Tame e d (normalizeBranch b) := by
  refine leads_normalizeBranch (R := fun _ => Draft.Changes e)
    (P := fun b d => d.tree.Sound ∧ Known d.tree b) ?_ (fun _ _ h => h) ?_ b d ⟨hd, hknown⟩
  · rintro n cs c d d' ⟨hd, hknown⟩ hc hchanges
    exact ⟨hchanges.sound hd, (hknown.of_mem_children hc).mono (hchanges.keepsKinds hd)⟩
  · rintro n cs c d d' first ⟨hd, hknown⟩ - hc htext hchanges
    obtain ⟨m, hm, hk⟩ := (hknown.mono (hchanges.keepsKinds hd)).exists_text hc htext
    exact tame_joinTexts (hchanges.sound hd) hm hk

theorem tame_normalize (hd : d.tree.Sound) (id : NodeId) : Tame e d (normalize id) := by
  refine .tree_bind ?_
  split
  · next b hb =>
    exact tame_normalizeBranch b hd (known_of_shows (hd.branch?_eq_some_iff.mp hb).2)
  · exact .pure ()

end Edit

end ContentTree
