import ContentTree.Proofs.Draft.Change
import ContentTree.Session

/-!
# The journal is faithful

All changes are made of three kinds of writes: a node is entered into the journal, a node is entered
and then written, and the entries besides the nodes are set. Such writes cannot escape the journal,
so that it takes a draft back to the tree it started from, wherever the draft has come to.

## Main definitions

* `Draft.Write`, `Draft.Writes`: the three writes, and any number of them.
* `Draft.Records`: the journal of a draft says what a tree was.

## Main results

* `Records.undo_eq`: a draft with a faithful journal goes back to the tree.
* `Records.node?_eq`: whatever is not touched is as it was.
* `Changes.writes`: changes consist of writes.
* `undo_eq_of_writes`: any number of writes can be undone.
-/

namespace ContentTree

open Relation

/-! ### Overwriting a table -/

section Overwrite

variable {α : Type} {f : Std.ExtTreeMap NodeId α → NodeId → Option α → Std.ExtTreeMap NodeId α}

theorem getElem?_foldl_pairs
    (hf : ∀ m id (w : Option α) x, (f m id w)[x]? = if x = id then w else m[x]?)
    (ws : List (NodeId × Option α)) (hws : ws.Pairwise fun a b => a.1 ≠ b.1) :
    ∀ (m : Std.ExtTreeMap NodeId α) (x : NodeId),
      (ws.foldl (fun m w => f m w.1 w.2) m)[x]? =
        ((ws.find? (·.1 = x)).map Prod.snd).getD m[x]? := by
  induction ws with
  | nil => exact fun _ _ => rfl
  | cons w ws ih =>
    intro m x
    obtain ⟨hw, hws⟩ := List.pairwise_cons.mp hws
    rw [List.foldl_cons, ih hws, List.find?_cons, hf]
    by_cases hx : w.1 = x
    · -- Nothing that comes later writes to the same entry.
      have hlater : ws.find? (·.1 = x) = none :=
        List.find?_eq_none.mpr fun v hv => by simpa [hx] using (hw v hv).symm
      simp [hlater, hx]
    · simp [hx, Ne.symm hx]

/-- After a table was overwritten with the entries of another, each of these entries stands there,
and everything else is as before. -/
theorem getElem?_foldl_overwrite
    (hf : ∀ m id (w : Option α) x, (f m id w)[x]? = if x = id then w else m[x]?)
    (ws : Std.ExtTreeMap NodeId (Option α)) (m : Std.ExtTreeMap NodeId α) (x : NodeId) :
    (ws.foldl f m)[x]? = ws[x]?.getD m[x]? := by
  have hpairs : ws.toList.Pairwise fun a b => a.1 ≠ b.1 :=
    Std.ExtTreeMap.distinct_keys_toList.imp fun h heq => h (Std.compare_eq_iff_eq.mpr heq)
  rw [Std.ExtTreeMap.foldl_eq_foldl_toList, getElem?_foldl_pairs hf _ hpairs]
  -- What is found in the list of entries is what the table has for the key.
  cases hx : ws[x]? with
  | none =>
    have hnone : ws.toList.find? (·.1 = x) = none := by
      refine List.find?_eq_none.mpr fun w hw heq => ?_
      obtain rfl : w.1 = x := by simpa using heq
      have := Std.ExtTreeMap.mem_toList_iff_getElem?_eq_some.mp hw
      exact Option.some_ne_none _ (this.symm.trans hx)
    rw [hnone]
    rfl
  | some w =>
    have hmem := Std.ExtTreeMap.mem_toList_iff_getElem?_eq_some.mpr hx
    cases hfind : ws.toList.find? (·.1 = x) with
    | none => exact absurd (List.find?_eq_none.mp hfind _ hmem) (by simp)
    | some v =>
      have hv : v.1 = x := by simpa using List.find?_some hfind
      have hv' := Std.ExtTreeMap.mem_toList_iff_getElem?_eq_some.mp
        (List.mem_of_find?_eq_some hfind)
      rw [hv, hx] at hv'
      simp [Option.some.inj hv']

end Overwrite

namespace Draft

open ContentTree.Tree (KeepsKinds)

variable {t : Tree} {d d' : Draft}

/-! ### The journal -/

/-- The journal of a draft says what a tree was: the entries are the nodes of the tree, and nodes
without an entry are as they were there. -/
structure Records (t : Tree) (d : Draft) : Prop where
  entry : ∀ {id before}, d.journal.earlier[id]? = some before → before = t.node? id
  untouched : ∀ {id}, d.journal.earlier[id]? = none → d.tree.node? id = t.node? id
  rest : (d.journal.sharing, d.journal.lastId, d.journal.shadow) = t.rest

theorem records_start (t : Tree) : Records t (start t) where
  entry h := by simp [start] at h
  untouched _ := rfl
  rest := rfl

/-- A draft with a faithful journal goes back to the tree. -/
theorem Records.undo_eq (h : Records t d) : d.undo = t := by
  refine Tree.ext_node? (fun id => ?_) h.rest
  have hwrite : d.undo.node? id = d.journal.earlier[id]?.getD (d.tree.node? id) := by
    refine getElem?_foldl_overwrite (fun m x w y => ?_) d.journal.earlier d.tree.nodes id
    cases w <;>
      simp only [Std.ExtTreeMap.getElem?_insert, Std.ExtTreeMap.getElem?_erase,
        Std.compare_eq_iff_eq, eq_comm (a := y)]
  rw [hwrite]
  cases hid : d.journal.earlier[id]? with
  | some before => exact h.entry hid
  | none => exact h.untouched hid

/-- The writes that all changes are made of. -/
inductive Write (d : Draft) : Draft → Prop
  | touch (id : NodeId) : Write d (d.touch id)
  | put (n : Node) : Write d (d.put n)
  | rest (sharing : Sharing) (lastId : NodeId) (shadow : Option NodeId) :
    Write d { d with tree := { d.tree with sharing, lastId, shadow } }

/-- Any number of writes. -/
def Writes : Draft → Draft → Prop := ReflTransGen Write

theorem Records.touch (h : Records t d) (id : NodeId) : Records t (d.touch id) := by
  have hentry : ∀ x, (d.touch id).journal.earlier[x]? =
      if id = x ∧ d.journal.earlier[x]? = none then some (d.tree.node? x)
      else d.journal.earlier[x]? := by
    intro x
    simp only [Draft.touch, Std.ExtTreeMap.getElem?_insertIfNew, Std.compare_eq_iff_eq]
    by_cases hx : id = x
    · subst hx
      have hmem : id ∈ d.journal.earlier ↔ d.journal.earlier[id]? ≠ none := by
        rw [Std.ExtTreeMap.mem_iff_isSome_getElem?, Option.isSome_iff_ne_none]
      simp only [true_and, hmem, not_not]
    · simp [hx]
  refine ⟨fun {x before} hx => ?_, fun {x} hx => ?_, h.rest⟩
  · rw [hentry] at hx
    split at hx
    · next hnew => rw [← Option.some.inj hx, h.untouched hnew.2]
    · exact h.entry hx
  · rw [hentry] at hx
    split at hx
    · exact absurd hx (Option.some_ne_none _)
    · exact h.untouched hx

theorem Records.write (h : Records t d) (hw : Write d d') : Records t d' := by
  cases hw with
  | touch id => exact h.touch id
  | rest sharing lastId shadow => exact ⟨h.entry, h.untouched, h.rest⟩
  | put n =>
    -- The node has an entry now, and it is the only one that changes.
    have htouch := h.touch n.id
    refine ⟨htouch.entry, fun {x} hx => ?_, htouch.rest⟩
    have hne : x ≠ n.id := by
      rintro rfl
      have : (d.touch n.id).journal.earlier[n.id]?.isSome = true := by
        simp [Draft.touch]
      rw [show (d.touch n.id).journal.earlier[n.id]? = none from hx] at this
      exact Bool.false_ne_true this
    rw [node?_put, if_neg hne]
    exact htouch.untouched hx

theorem Records.writes (h : Records t d) (hw : Writes d d') : Records t d' := by
  induction hw with
  | refl => exact h
  | tail _ hstep ih => exact ih.write hstep

/-- Any number of writes can be undone. -/
theorem undo_eq_of_writes (h : Writes (start t) d) : d.undo = t :=
  ((records_start t).writes h).undo_eq

/-! ### Changes consist of writes -/

theorem Writes.trans {d'' : Draft} (h : Writes d d') (h' : Writes d' d'') : Writes d d'' :=
  ReflTransGen.trans h h'

theorem writes_put (d : Draft) (n : Node) : Writes d (d.put n) := .single (.put n)

theorem writes_modify (d : Draft) (id : NodeId) (f : Node → Node) : Writes d (d.modify id f) := by
  unfold modify
  split
  · exact writes_put d _
  · exact .refl

theorem writes_foldl {α : Type} {f : Draft → α → Draft} (hf : ∀ d a, Writes d (f d a))
    (as : List α) : ∀ d, Writes d (as.foldl f d) := by
  induction as with
  | nil => exact fun _ => .refl
  | cons a as ih => exact fun d => (hf d a).trans (ih _)

theorem writes_addAt (d : Draft) (id : NodeId) (content : Content) :
    Writes d (d.addAt id content) :=
  (writes_put d (Node.ofContent id content)).tail (.rest _ _ _)

theorem writes_renumber (d : Draft) (parent : NodeId) (first : Nat) :
    Writes d (d.renumber parent first) :=
  writes_foldl (fun d _ => writes_modify d _ _) _ d

theorem writes_attach (d : Draft) (parent child : NodeId) (i : Nat) :
    Writes d (d.attach parent child i) :=
  ((writes_modify d _ _).trans (writes_modify _ _ _)).trans (writes_renumber _ _ _)

theorem writes_detach (d : Draft) (child : NodeId) : Writes d (d.detach child) := by
  unfold detach
  split
  · exact .refl
  · exact ((writes_modify d _ _).trans (writes_modify _ _ _)).trans (writes_renumber _ _ _)

theorem writes_setDocument (d : Draft) (root : NodeId) (document : Option NodeId) :
    Writes d (d.setDocument root document) :=
  writes_foldl (fun d _ => writes_modify d _ _) _ d

theorem writes_bumpVersion (d : Draft) (page : NodeId) : Writes d (d.bumpVersion page) :=
  writes_modify d page _

theorem writes_link (d : Draft) (mirror component : NodeId) :
    Writes d (d.link mirror component) := by
  have hrest : Writes d
      { d with tree := { d.tree with sharing := d.tree.sharing.link mirror component } } :=
    .single (.rest _ _ _)
  unfold link
  refine (hrest.trans ?_).trans ((ReflTransGen.single (.touch component)).trans
    (writes_modify _ mirror _))
  split
  · exact .single (.touch _)
  · exact .refl

theorem writes_unlink (d : Draft) (mirror : NodeId) : Writes d (d.unlink mirror) := by
  have hrest : Writes d
      { d with tree := { d.tree with sharing := d.tree.sharing.unlink mirror } } :=
    .single (.rest _ _ _)
  unfold unlink
  refine (hrest.trans ?_).trans (writes_modify _ mirror _)
  split
  · exact .single (.touch _)
  · exact .refl

theorem writes_ensureShadow (d : Draft) : Writes d d.ensureShadow.2 := by
  unfold ensureShadow
  split
  · exact .refl
  · exact (writes_addAt d _ _).tail (.rest _ _ _)

theorem writes_place (d : Draft) (parent child : NodeId) (reference : Option NodeId) :
    Writes d (d.place parent child reference) := by
  have hsettle : Writes d (d.settle parent child reference) :=
    (writes_detach d child).trans (writes_attach _ _ _ _)
  rw [place_eq]
  split
  · exact hsettle
  · exact hsettle.trans (writes_setDocument _ _ _)

theorem writes_copyChildren (owner : Option String) (parent : NodeId) (cs : List Branch)
    (hcs : ∀ c ∈ cs, ∀ d, Writes d (copy owner c d).2) :
    ∀ d, Writes d (copy.copyChildren owner parent cs d) := by
  induction cs with
  | nil => exact fun _ => .refl
  | cons c cs ih =>
    exact fun d => ((hcs c List.mem_cons_self d).trans (writes_attach _ _ _ _)).trans
      (ih (fun c hc => hcs c (List.mem_cons_of_mem _ hc)) _)

theorem writes_copy (owner : Option String) (b : Branch) : ∀ d, Writes d (copy owner b d).2 := by
  induction b with
  | mk n cs ih => exact fun d => (writes_addAt d _ _).trans (writes_copyChildren owner _ cs ih _)

theorem writes_cloneBranch (owner : Option String) (b : Branch) (d : Draft) :
    Writes d (d.cloneBranch owner b).2 :=
  (writes_copy owner b d).trans (writes_setDocument _ _ _)

theorem writes_shareBranch (owner : Option String) (b : Branch) (d : Draft) :
    Writes d (Edit.shareBranch owner b d).2 := by
  have hshared : Writes d (shared owner b d) :=
    ((writes_ensureShadow d).trans (writes_cloneBranch owner b _)).trans (writes_attach _ _ _ _)
  rw [shareBranch_eq]
  exact (hshared.trans (writes_setDocument _ _ _)).trans (writes_link _ _ _)

variable {e : Editor} {id : NodeId}

theorem Change.writes (h : Change e d d') : Writes d d' := by
  cases h with
  | place _ => exact writes_place d _ _ _
  | detach child _ => exact writes_detach d child
  | discard _ _ _ => exact (writes_detach d _).trans (writes_setDocument _ _ _)
  | recast _ _ _ => exact writes_modify d _ _
  | clone _ _ => exact writes_cloneBranch _ _ d
  | createPage _ => exact writes_addAt d _ _
  | create _ _ => exact (writes_addAt d _ _).trans (writes_setDocument _ _ _)
  | adopt _ _ _ _ => exact (writes_detach d _).trans (writes_setDocument _ _ _)
  | link _ _ _ _ _ _ _ => exact writes_link d _ _
  | unlink mirror _ => exact writes_unlink d mirror
  | share _ _ _ _ => exact writes_shareBranch _ _ d

/-- Changes consist of writes. -/
theorem Changes.writes (h : Changes e d d') : Writes d d' := by
  induction h with
  | refl => exact .refl
  | tail _ hstep ih => exact ih.trans hstep.writes

theorem writes_bumpPages (d : Draft) : Writes d d.bumpPages :=
  writes_foldl (fun d page => writes_bumpVersion d page) _ d

/-! ### The end of a transaction -/

/-- A property of drafts that higher versions keep is kept at the end of a transaction. -/
theorem bumpPages_induction {P : Draft → Prop} (hbump : ∀ d page, P d → P (d.bumpVersion page))
    {d : Draft} (hd : P d) : P d.bumpPages := by
  have hfold : ∀ (pages : List NodeId) (d : Draft), P d → P (pages.foldl Draft.bumpVersion d) := by
    intro pages
    induction pages with
    | nil => exact fun _ h => h
    | cons page pages ih => exact fun d h => ih _ (hbump d page h)
  exact hfold _ d hd

theorem sound_bumpPages (h : d.tree.Sound) : d.bumpPages.tree.Sound :=
  bumpPages_induction (P := fun d => d.tree.Sound) (fun _ page hd => hd.bumpVersion page) h

theorem keepsKinds_bumpPages (h : d.tree.Sound) : KeepsKinds d.tree d.bumpPages.tree := by
  refine (bumpPages_induction (P := fun d' => d'.tree.Sound ∧ KeepsKinds d.tree d'.tree) ?_
    ⟨h, .refl _⟩).2
  exact fun d' page hd => ⟨hd.1.bumpVersion page, hd.2.trans (.bumpVersion hd.1.keyed page)⟩

/-- The journal is still faithful when the versions have gone up. -/
theorem Changes.records (h : (start t).Changes e d) : Records t d.bumpPages :=
  (records_start t).writes (h.writes.trans (writes_bumpPages d))

theorem mem_touched : id ∈ d.touched ↔ d.journal.earlier[id]? ≠ none := by
  rw [touched, Std.ExtTreeMap.mem_keys, Std.ExtTreeMap.mem_iff_isSome_getElem?,
    Option.isSome_iff_ne_none]

/-- Whatever is not touched is as it was. -/
theorem Records.node?_eq (h : Records t d) (hid : id ∉ d.touched) :
    d.tree.node? id = t.node? id :=
  h.untouched (not_not.mp (mt mem_touched.mpr hid))

end Draft

end ContentTree
