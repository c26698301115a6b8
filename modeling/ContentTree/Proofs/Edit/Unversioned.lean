import ContentTree.Proofs.Draft.Unversioned
import ContentTree.Proofs.Edit.Tame

/-!
# Operations do not look at versions

In trees that are the same but for the versions of pages, an operation finds the same, returns the
same and writes the same, as long as the policy that decides who may write does not look at versions
either. What an operation reads on the way may be a node or a branch with another version, so that
intermediate results are related instead of equal.

## Main definitions

* `Access.IgnoresVersions`: a policy that does not look at versions.
* `Follows`: an examination has a result wherever another one has.
* `Edit.Mimics`: the same of edits, with drafts that are the same but for versions.
* `Edit.IgnoresVersions`: an edit mimics itself.

## Main results

* `Edit.ignoresVersions_append`, `Edit.ignoresVersions_normalize` and others: the operations.
-/

namespace ContentTree

variable {ε α β γ δ : Type}

/-- The policy decides the same on a node with another version. -/
def Access.IgnoresVersions (a : Access) : Prop :=
  ∀ principal n, a.canWrite principal n.unversioned = a.canWrite principal n

theorem Access.ignoresVersions_unrestricted : Access.unrestricted.IgnoresVersions :=
  fun _ _ => rfl

theorem Access.ignoresVersions_byGrants : Access.byGrants.IgnoresVersions := by
  rintro (_ | ⟨name, _ | _⟩) n <;> rfl

/-! ### Examinations -/

/-- Where one computation has a result, so has another, and the results are related. -/
def Follows (R : α → β → Prop) (x : Except ε α) (y : Except ε β) : Prop :=
  ∀ a, x = .ok a → ∃ b, y = .ok b ∧ R a b

namespace Follows

variable {R : α → β → Prop} {S : γ → δ → Prop} {e e' : ε} {p q : Prop} [Decidable p] [Decidable q]

theorem refl (x : Except ε α) : Follows Eq x x := fun a h => ⟨a, h, rfl⟩

theorem pure {a : α} {b : β} (h : R a b) :
    Follows R (Pure.pure a : Except ε α) (Pure.pure b) := by
  rintro _ ⟨⟩
  exact ⟨b, rfl, h⟩

theorem bind {x : Except ε α} {y : Except ε β} {f : α → Except ε γ} {g : β → Except ε δ}
    (hx : Follows R x y) (hf : ∀ a b, R a b → Follows S (f a) (g b)) :
    Follows S (x >>= f) (y >>= g) := by
  intro c hc
  obtain ⟨a, ha, hc⟩ := bind_eq_ok.mp hc
  obtain ⟨b, hb, hab⟩ := hx a ha
  obtain ⟨d, hd, hcd⟩ := hf a b hab c hc
  exact ⟨d, bind_eq_ok.mpr ⟨b, hb, hd⟩, hcd⟩

/-- A refusal under a condition, with more to come. -/
theorem ite_throw {f f' : α → Except ε β} {x y : Except ε β} {R : β → β → Prop} (hpq : q → p)
    (h : Follows R x y) :
    Follows R (if p then throw e >>= f else x) (if q then throw e' >>= f' else y) := by
  intro b hb
  obtain ⟨hp, hb⟩ := ite_throw_bind_eq_ok.mp hb
  obtain ⟨c, hc, hbc⟩ := h b hb
  exact ⟨c, ite_throw_bind_eq_ok.mpr ⟨fun hq => hp (hpq hq), hc⟩, hbc⟩

/-- A refusal under a condition, at the end. -/
theorem ite_throw_pure (hpq : q → p) :
    Follows Eq (if p then throw e else Pure.pure () : Except ε Unit)
      (if q then throw e' else Pure.pure ()) := by
  intro u hu
  exact ⟨u, ite_throw_eq_ok.mpr fun hq => ite_throw_eq_ok.mp hu (hpq hq), rfl⟩

/-- A refusal unless a condition holds, at the end. -/
theorem ite_pure (hpq : p → q) :
    Follows Eq (if p then Pure.pure () else throw e : Except ε Unit)
      (if q then Pure.pure () else throw e') := by
  intro u hu
  exact ⟨u, ite_pure_eq_ok.mpr (hpq (ite_pure_eq_ok.mp hu)), rfl⟩

end Follows

namespace Tree

variable {t t' : Tree} (h : t.unversioned = t'.unversioned)
include h

theorem follows_require (x : NodeId) : Follows (fun n n' : Node => n.unversioned = n'.unversioned)
    (t.require x) (t'.require x) := by
  intro n hn
  rcases node?_congr h x with ⟨hnone, -⟩ | ⟨m, n', hm, hn', heq⟩
  · exact absurd ((require_eq_ok.mp hn).symm.trans hnone) (Option.some_ne_none n)
  · obtain rfl := Option.some.inj (hm.symm.trans (require_eq_ok.mp hn))
    exact ⟨n', require_eq_ok.mpr hn', heq⟩

/-- The branch at a node, or the node alone. -/
theorem getD_branch?_congr {n n' : Node} (hn : n.unversioned = n'.unversioned) (x : NodeId) :
    ((t.branch? x).getD ⟨n, []⟩).map Node.unversioned =
      ((t'.branch? x).getD ⟨n', []⟩).map Node.unversioned := by
  rw [← Option.getD_map (Branch.map Node.unversioned),
    ← Option.getD_map (Branch.map Node.unversioned), branch?_congr h, Branch.map_mk, Branch.map_mk,
    hn]

theorem follows_requireContainer (parent : NodeId) :
    Follows Eq (t.requireContainer parent) (t'.requireContainer parent) := by
  refine .bind (follows_require h parent) fun n n' hn => .ite_pure ?_
  have htext := Kind.isText_eq_of_same (Node.same_of_unversioned_eq hn)
  rw [Kind.acceptsChildren, Kind.acceptsChildren, htext]
  exact id

theorem follows_requirePage (x : NodeId) : Follows Eq (t.requirePage x) (t'.requirePage x) := by
  refine .bind (follows_require h x) fun n n' hn => .ite_pure ?_
  rw [Node.isPage_eq_of_unversioned_eq hn]
  exact id

theorem follows_requirePlaceable (parent child : NodeId) :
    Follows Eq (t.requirePlaceable parent child) (t'.requirePlaceable parent child) := by
  refine .ite_throw id (.ite_throw ?_ ?_)
  · rw [isAncestor_congr h]
    exact id
  · refine .bind (follows_require h child) fun n n' hn => .ite_throw_pure ?_
    rw [Node.isPage_eq_of_unversioned_eq hn]
    exact id

theorem follows_requireSameDocument (parent child : NodeId) :
    Follows Eq (t.requireSameDocument parent child) (t'.requireSameDocument parent child) := by
  rw [requireSameDocument, requireSameDocument, document?_congr h, document?_congr h,
    shadow_congr h]
  exact .refl _

theorem follows_requireChild (parent child : NodeId) :
    Follows Eq (t.requireChild parent child) (t'.requireChild parent child) := by
  refine .bind (follows_require h child) fun _ _ _ => .ite_pure ?_
  rw [parent?_congr h]
  exact id

end Tree

namespace Editor

variable {e : Editor} {t t' : Tree} (h : t.unversioned = t'.unversioned)
include h

theorem follows_mayWrite (he : e.access.IgnoresVersions) (x : NodeId) :
    Follows Eq (e.mayWrite t x) (e.mayWrite t' x) := by
  refine .bind (Tree.follows_require h x) fun n n' hn => .ite_pure ?_
  rw [← he, hn, he]
  exact id

theorem follows_keepsSynced (parent : NodeId) :
    Follows Eq (e.keepsSynced t parent) (e.keepsSynced t' parent) := by
  rw [keepsSynced, keepsSynced, Tree.isSynced_congr h]
  exact .refl _

theorem follows_keepsSyncedParent (child : NodeId) :
    Follows Eq (e.keepsSyncedParent t child) (e.keepsSyncedParent t' child) := by
  rw [keepsSyncedParent, keepsSyncedParent, Tree.parent?_congr h]
  split
  · exact follows_keepsSynced h _
  · exact .refl _

theorem follows_admits (he : e.access.IgnoresVersions) (parent child : NodeId)
    (reference : Option NodeId) :
    Follows Eq (e.admits t parent child reference) (e.admits t' parent child reference) := by
  have hrest : Follows Eq
      (do e.keepsSynced t parent
          if t.parent? child ≠ some parent then e.keepsSyncedParent t child)
      (do e.keepsSynced t' parent
          if t'.parent? child ≠ some parent then e.keepsSyncedParent t' child) := by
    refine .bind (follows_keepsSynced h parent) fun _ _ _ => ?_
    rw [Tree.parent?_congr h]
    split
    · exact follows_keepsSyncedParent h child
    · exact .refl _
  unfold admits
  refine .bind (follows_mayWrite h he parent) fun _ _ _ => ?_
  refine .bind (Tree.follows_requireContainer h parent) fun _ _ _ => ?_
  refine .bind (Tree.follows_requirePlaceable h parent child) fun _ _ _ => ?_
  refine .bind (Tree.follows_requireSameDocument h parent child) fun _ _ _ => ?_
  cases reference with
  | none => exact hrest
  | some r => exact .bind (Tree.follows_requireChild h parent r) fun _ _ _ => hrest

end Editor

/-! ### Edits -/

namespace Edit

/-- On drafts that are the same but for versions, one edit succeeds where another does. What they
return is related, and the drafts are again the same but for versions. -/
def Mimics (e : Editor) (R : α → β → Prop) (x : Edit α) (y : Edit β) : Prop :=
  ∀ d d' : Draft, d.tree.unversioned = d'.tree.unversioned →
    ∀ a d₁, x.run e d = (.ok a, d₁) →
      ∃ b d₁', y.run e d' = (.ok b, d₁') ∧ R a b ∧ d₁.tree.unversioned = d₁'.tree.unversioned

/-- An edit that does the same on drafts that are the same but for versions. -/
def IgnoresVersions (e : Editor) (x : Edit α) : Prop := Mimics e Eq x x

namespace Mimics

variable {e : Editor} {R : α → β → Prop} {S : γ → δ → Prop}

theorem pure {a : α} {b : β} (h : R a b) : Mimics e R (pure a : Edit α) (pure b : Edit β) := by
  rintro d d' hd _ _ ⟨⟩
  exact ⟨b, d', rfl, h, hd⟩

theorem bind {x : Edit α} {y : Edit β} {f : α → Edit γ} {g : β → Edit δ} (hx : Mimics e R x y)
    (hf : ∀ a b, R a b → Mimics e S (f a) (g b)) : Mimics e S (x >>= f) (y >>= g) := by
  intro d d' hd c d₂ hrun
  obtain ⟨a, d₁, ha, hc⟩ := run_bind_eq_ok.mp hrun
  obtain ⟨b, d₁', hb, hab, hd₁⟩ := hx d d' hd a d₁ ha
  obtain ⟨c', d₂', hc', hcc, hd₂⟩ := hf a b hab d₁ d₁' hd₁ c d₂ hc
  exact ⟨c', d₂', run_bind_eq_ok.mpr ⟨b, d₁', hb, hc'⟩, hcc, hd₂⟩

theorem check {examine : Editor → Tree → Except TreeError α}
    {examine' : Editor → Tree → Except TreeError β}
    (h : ∀ t t' : Tree, t.unversioned = t'.unversioned →
      Follows R (examine e t) (examine' e t')) :
    Mimics e R (check examine) (check examine') := by
  intro d d' hd a d₁ hrun
  obtain ⟨ha, rfl⟩ := run_check_eq_ok.mp hrun
  obtain ⟨b, hb, hab⟩ := h d.tree d'.tree hd a ha
  exact ⟨b, d', run_check_eq_ok.mpr ⟨hb, rfl⟩, hab, hd⟩

theorem read_bind {f : Editor → Edit γ} {g : Editor → Edit δ} (h : Mimics e S (f e) (g e)) :
    Mimics e S (read >>= f) (read >>= g) := h

theorem tree : Mimics e (fun t t' => t.unversioned = t'.unversioned) tree tree := by
  rintro d d' hd _ _ ⟨⟩
  exact ⟨d'.tree, d', rfl, hd, hd⟩

theorem write {f g : Draft → Draft} (h : ∀ d d' : Draft, d.tree.unversioned = d'.tree.unversioned →
    (f d).tree.unversioned = (g d').tree.unversioned) : Mimics e Eq (write f) (write g) := by
  rintro d d' hd _ _ ⟨⟩
  exact ⟨(), g d', rfl, rfl, h d d' hd⟩

theorem writeNode {f g : Draft → NodeId × Draft}
    (h : ∀ d d' : Draft, d.tree.unversioned = d'.tree.unversioned →
      (f d).1 = (g d').1 ∧ (f d).2.tree.unversioned = (g d').2.tree.unversioned) :
    Mimics e Eq (writeNode f) (writeNode g) := by
  rintro d d' hd _ _ ⟨⟩
  obtain ⟨hid, htree⟩ := h d d' hd
  exact ⟨(g d').1, (g d').2, rfl, hid, htree⟩

end Mimics

/-- An edit goes on ignoring versions when its result is made into something else. -/
theorem IgnoresVersions.map {e : Editor} {x : Edit α} (h : IgnoresVersions e x) (f : α → β) :
    IgnoresVersions e (do return f (← x)) :=
  .bind h fun _ _ heq => .pure (congrArg f heq)

/-! ### The operations -/

section Operations

variable {e : Editor} (he : e.access.IgnoresVersions) (parent child x : NodeId)
  (reference : Option NodeId)
include he

theorem ignoresVersions_insertOne : IgnoresVersions e (insertOne parent child reference) := by
  refine .bind (.check fun t t' h => Editor.follows_admits h he parent child reference)
    fun _ _ _ => ?_
  split
  · exact .write fun _ _ h => Draft.unversioned_place h parent child reference
  · exact .pure rfl

theorem ignoresVersions_insertAll (children : List NodeId) :
    IgnoresVersions e (insertAll parent reference children) := by
  induction children with
  | nil => exact .pure rfl
  | cons x rest ih => exact .bind (ignoresVersions_insertOne he parent x reference) fun _ _ _ => ih

theorem ignoresVersions_insert : IgnoresVersions e (insert parent child reference) := by
  refine .bind (.check fun t t' h => Tree.follows_require h child) fun n n' hn => ?_
  have hfragment := Kind.isFragment_eq_of_same (Node.same_of_unversioned_eq hn)
  have hchildren := congrArg (fun n : Node => n.children) hn
  change n.children = n'.children at hchildren
  rw [hfragment, hchildren]
  split
  · refine .bind (R := Eq) (.check fun t t' h => ?_)
      fun _ _ _ => ignoresVersions_insertAll he parent reference _
    refine .bind (Editor.follows_mayWrite h he parent) fun _ _ _ => ?_
    refine .bind (Tree.follows_requireContainer h parent) fun _ _ _ => .ite_throw_pure ?_
    rw [Tree.isAncestor_congr h]
    exact id
  · exact ignoresVersions_insertOne he parent child reference

theorem ignoresVersions_append : IgnoresVersions e (append parent child) :=
  .bind (ignoresVersions_insert he parent child none) fun _ _ _ => .pure rfl

theorem ignoresVersions_insertBefore : IgnoresVersions e (insertBefore parent child reference) :=
  .bind (ignoresVersions_insert he parent child reference) fun _ _ _ => .pure rfl

theorem ignoresVersions_replace (old : NodeId) :
    IgnoresVersions e (replace parent child old) := by
  refine .bind (.check fun t t' h => .bind (Editor.follows_mayWrite h he parent) fun _ _ _ =>
    Tree.follows_requireChild h parent old) fun _ _ _ => ?_
  split
  · refine .bind (ignoresVersions_insert he parent child (some old)) fun _ _ _ => ?_
    exact .bind (.write fun _ _ h => Draft.unversioned_detach h old) fun _ _ _ => .pure rfl
  · exact .pure rfl

theorem ignoresVersions_remove : IgnoresVersions e (remove parent child) := by
  refine .bind (.check fun t t' h => .bind (Editor.follows_mayWrite h he parent) fun _ _ _ =>
    .bind (Tree.follows_requireChild h parent child) fun _ _ _ =>
      Editor.follows_keepsSynced h parent) fun _ _ _ => ?_
  exact .bind (.write fun _ _ h => Draft.unversioned_detach h child) fun _ _ _ => .pure rfl

theorem ignoresVersions_trash : IgnoresVersions e (trash x) := by
  refine .bind (R := Eq) (.check fun t t' h => ?_)
    fun _ _ _ => .write fun _ _ h => Draft.unversioned_discard h x
  refine .bind (Tree.follows_require h x) fun n n' hn => .ite_throw ?_ ?_
  · rw [Node.isPage_eq_of_unversioned_eq hn]
    exact id
  · rw [Tree.parent?_congr h]
    cases t'.parent? x with
    | none => exact Editor.follows_mayWrite h he x
    | some p =>
      exact .bind (Editor.follows_mayWrite h he p) fun _ _ _ => Editor.follows_keepsSynced h p

theorem ignoresVersions_adopt (page : NodeId) : IgnoresVersions e (adopt page x) := by
  refine .bind (R := Eq) (.check fun t t' h => ?_) fun _ _ _ => ?_
  · refine .bind (Tree.follows_requirePage h page) fun _ _ _ => ?_
    refine .bind (Editor.follows_mayWrite h he page) fun _ _ _ => ?_
    refine .bind (Tree.follows_require h x) fun n n' hn => .ite_throw ?_ ?_
    · rw [Node.isPage_eq_of_unversioned_eq hn]
      exact id
    · exact Editor.follows_keepsSyncedParent h x
  · refine .bind (.write fun d d' h => ?_) fun _ _ _ => .pure rfl
    exact Draft.unversioned_setDocument (Draft.unversioned_detach h x) x (some page)

theorem ignoresVersions_create (document : Option NodeId) (content : Content) :
    IgnoresVersions e (create document content) := by
  have hadd : ∀ owned : Content, IgnoresVersions e (writeNode fun d =>
      ((d.add owned).1, if content.kind.isPage then (d.add owned).2
        else (d.add owned).2.setDocument (d.add owned).1 document)) := by
    refine fun owned => .writeNode fun d d' h => ?_
    have hnext : d.nextId = d'.nextId := congrArg (· + 1) (Tree.lastId_congr h)
    have hadded := Draft.unversioned_addAt h d'.nextId owned
    dsimp only [Draft.add]
    rw [hnext]
    refine ⟨rfl, ?_⟩
    split
    · exact hadded
    · exact Draft.unversioned_setDocument hadded _ _
  unfold create
  cases hkind : content.kind.isPage with
  | true =>
    rw [hkind] at hadd
    cases document <;> exact .read_bind (hadd _)
  | false =>
    rw [hkind] at hadd
    cases document with
    | none => exact .read_bind (hadd _)
    | some page =>
      refine .bind (R := Eq) (.check fun t t' h => ?_) fun _ _ _ => .read_bind (hadd _)
      exact .bind (Tree.follows_requirePage h page) fun _ _ _ => Editor.follows_mayWrite h he page

theorem ignoresVersions_update (content : Content) :
    IgnoresVersions e (update x content) := by
  refine .bind (R := Eq) (.check fun t t' h => ?_)
    fun _ _ _ => .write fun _ _ h => Draft.unversioned_setContent h x rfl
  refine .bind (Editor.follows_mayWrite h he x) fun _ _ _ => ?_
  refine .bind (Tree.follows_require h x) fun n n' hn => .ite_throw_pure ?_
  rw [Kind.same_congr (Node.same_of_unversioned_eq hn) content.kind.same_refl]
  exact id

theorem ignoresVersions_link (mirror component : NodeId) :
    IgnoresVersions e (link mirror component) := by
  refine .bind (R := Eq) (.check fun t t' h => ?_)
    fun _ _ _ => .write fun _ _ h => Draft.unversioned_link h mirror component
  refine .bind (Editor.follows_mayWrite h he mirror) fun _ _ _ => ?_
  refine .bind (Tree.follows_require h mirror) fun m m' hm => ?_
  refine .bind (Tree.follows_require h component) fun c c' hc => ?_
  refine .ite_throw id (.ite_throw ?_ (.ite_throw_pure ?_))
  · rw [Kind.same_congr (Node.same_of_unversioned_eq hm) (Node.same_of_unversioned_eq hc)]
    exact id
  · rw [Tree.sharing_congr h]
    exact id

theorem ignoresVersions_unlink (mirror : NodeId) : IgnoresVersions e (unlink mirror) := by
  refine .bind (.check fun t t' h => Editor.follows_mayWrite h he mirror) fun _ _ _ => ?_
  refine .bind .tree fun t t' h => ?_
  refine .bind (.write fun _ _ h => Draft.unversioned_unlink h mirror) fun _ _ _ => .pure ?_
  rw [Tree.sharing_congr h]

theorem ignoresVersions_share : IgnoresVersions e (share x) := by
  refine .bind (R := fun n n' : Node => n.unversioned = n'.unversioned) (.check fun t t' h => ?_)
    fun n n' hn => .read_bind ?_
  · refine .bind (Editor.follows_mayWrite h he x) fun _ _ _ => ?_
    rw [Tree.isSynced_congr h]
    refine .ite_throw id ?_
    refine .bind (Tree.follows_require h x) fun n n' hn => .ite_throw ?_ (.pure hn)
    rw [Node.isPage_eq_of_unversioned_eq hn]
    exact id
  · refine .bind .tree fun t t' h => .writeNode fun d d' hd => ?_
    exact Draft.unversioned_shareBranch _ (Tree.getD_branch?_congr h hn x) hd

omit he in
theorem ignoresVersions_clone (deep : Bool) : IgnoresVersions e (clone x deep) := by
  refine .bind (.check fun t t' h => Tree.follows_require h x) fun n n' hn => .read_bind ?_
  refine .bind .tree fun t t' h => .writeNode fun d d' hd => Draft.unversioned_cloneBranch _ ?_ hd
  cases deep with
  | true => exact Tree.getD_branch?_congr h hn x
  | false =>
    change Branch.map Node.unversioned ⟨n, []⟩ = Branch.map Node.unversioned ⟨n', []⟩
    rw [Branch.map_mk, Branch.map_mk, hn]

theorem ignoresVersions_importNode (page : NodeId) (deep : Bool) :
    IgnoresVersions e (importNode page x deep) := by
  refine .bind (.check fun t t' h => Tree.follows_requirePage h page) fun _ _ _ => ?_
  refine .bind (ignoresVersions_clone x deep) fun copy copy' hcopy => ?_
  rw [hcopy]
  exact ignoresVersions_adopt he copy' page

/-! ### Joining texts -/

omit he in
/-- What the first of two texts becomes, but for versions. -/
theorem withVersion_joined {head head' tail tail' : Kind}
    (hhead : head.withVersion 0 = head'.withVersion 0)
    (htail : tail.withVersion 0 = tail'.withVersion 0) :
    (match head, tail with
      | .text start contentType, .text rest _ => Kind.text (start ++ rest) contentType
      | kind, _ => kind).withVersion 0 =
    (match head', tail' with
      | .text start contentType, .text rest _ => Kind.text (start ++ rest) contentType
      | kind, _ => kind).withVersion 0 := by
  have hjoined : ∀ head tail : Kind,
      (match head, tail with
        | .text start contentType, .text rest _ => Kind.text (start ++ rest) contentType
        | kind, _ => kind).withVersion 0 =
      match head.withVersion 0, tail.withVersion 0 with
        | .text start contentType, .text rest _ => Kind.text (start ++ rest) contentType
        | kind, _ => kind := by
    intro head tail
    cases head <;> cases tail <;> rfl
  rw [hjoined, hjoined, hhead, htail]

theorem ignoresVersions_joinTexts (first second : NodeId) :
    IgnoresVersions e (joinTexts parent first second) := by
  refine .bind (R := fun c c' : Content => c.unversioned = c'.unversioned)
    (.check fun t t' h => ?_) fun c c' hc => .write fun d d' h => ?_
  · refine .bind (Tree.follows_require h first) fun head head' hhead => ?_
    refine .bind (Tree.follows_require h second) fun tail tail' htail => ?_
    refine .bind (Editor.follows_mayWrite h he parent) fun _ _ _ => ?_
    refine .bind (Editor.follows_keepsSynced h parent) fun _ _ _ => .pure ?_
    have hcontent : head.toContent.unversioned = head'.toContent.unversioned :=
      congrArg (fun n => n.toContent) hhead
    obtain ⟨hkind, hproperties, hlink⟩ := Content.mk.inj hcontent
    exact (Content.mk.injEq ..).mpr
      ⟨withVersion_joined hkind (congrArg (fun n => n.kind) htail), hproperties, hlink⟩
  · exact Draft.unversioned_discard (Draft.unversioned_setContent h first hc) second

theorem ignoresVersions_joinRuns (rest : List Sibling) : ∀ current : Sibling,
    (∀ s ∈ current :: rest, IgnoresVersions e s.inner) →
    IgnoresVersions e (joinRuns parent current rest) := by
  induction rest with
  | nil => exact fun current hinner => hinner current List.mem_cons_self
  | cons next rest ih =>
    intro current hinner
    have hrest : ∀ s ∈ current :: rest, IgnoresVersions e s.inner :=
      fun s hs => hinner s (by grind)
    rw [joinRuns]
    split
    · exact .bind (ignoresVersions_joinTexts he parent _ _) fun _ _ _ => ih current hrest
    · exact .bind (hinner current List.mem_cons_self) fun _ _ _ =>
        ih next fun s hs => hinner s (List.mem_cons_of_mem _ hs)

omit he in
/-- Joining the texts of a branch does not look at the versions in it. -/
theorem normalizeBranch_unversioned (b : Branch) :
    normalizeBranch (b.map Node.unversioned) = normalizeBranch b := by
  induction b with
  | mk n cs ih =>
    have hsiblings : normalizeBranch.siblings (cs.map (Branch.map Node.unversioned)) =
        normalizeBranch.siblings cs := by
      rw [siblings_eq, siblings_eq, List.map_map]
      refine List.map_congr_left fun c hc => ?_
      have htext : c.node.unversioned.kind.isText = c.node.kind.isText :=
        Kind.isText_eq_of_same (Kind.same_withVersion c.node.kind.same_refl 0)
      rw [Function.comp, ih c hc, Branch.id, Branch.node_map, htext]
      rfl
    rw [Branch.map_mk, normalizeBranch, normalizeBranch, hsiblings]
    rfl

theorem ignoresVersions_normalizeBranch (b : Branch) :
    IgnoresVersions e (normalizeBranch b) := by
  induction b with
  | mk n cs ih =>
    rw [normalizeBranch]
    refine .bind .tree fun t t' h => ?_
    rw [Tree.document?_congr h]
    split
    · have hinner : ∀ s ∈ normalizeBranch.siblings cs, IgnoresVersions e s.inner := by
        intro s hs
        rw [siblings_eq] at hs
        obtain ⟨c, hc, rfl⟩ := List.mem_map.mp hs
        exact ih c hc
      cases hcs : normalizeBranch.siblings cs with
      | nil => exact .pure rfl
      | cons first rest => exact ignoresVersions_joinRuns he n.id rest first (hcs ▸ hinner)
    · exact .pure rfl

theorem ignoresVersions_normalize : IgnoresVersions e (normalize x) := by
  refine .bind .tree fun t t' h => ?_
  have hbranch := Tree.branch?_congr h x
  cases hb : t.branch? x with
  | none =>
    rw [hb, Option.map_none, eq_comm, Option.map_eq_none_iff] at hbranch
    rw [hbranch]
    exact .pure rfl
  | some b =>
    rw [hb, Option.map_some, eq_comm, Option.map_eq_some_iff] at hbranch
    obtain ⟨b', hb', heq⟩ := hbranch
    rw [hb']
    dsimp only
    -- The two branches are one branch as far as joining its texts goes.
    rw [← normalizeBranch_unversioned b', heq, normalizeBranch_unversioned]
    exact ignoresVersions_normalizeBranch he b

end Operations

end Edit

end ContentTree
