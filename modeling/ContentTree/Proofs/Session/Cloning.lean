import ContentTree.Proofs.Draft.Copy
import ContentTree.Proofs.Draft.Inward
import ContentTree.Proofs.Session.Reach

/-!
# Copies in transactions

A transaction that copies a node, alone or with everything below it, adds a branch of the same shape
that nothing else in the tree refers to. The copies say what their sources say, belong to whoever
has copied them, and stand for no shared component. Nothing else is changed but versions of pages.

## Main definitions

* `Tree.CopiedWith`: the nodes that are copied together with a node.
* `Node.counterpart`: the copy of a node after the transaction.
* `Tree.Copied`: a tree has got copies of some of its nodes.

## Main results

* `Draft.exists_clone`, `Draft.run_importNode_eq_ok`: what the operations write.
* `Holds.copied`: what has been written when the transaction is over.
* `Session.cloning`: what a transaction that copies a node makes of a tree.
-/

namespace ContentTree

/-! ### What is copied, and what becomes of it -/

/-- The kind of a copy. A page becomes a page of its own, in its first version and not a shadow
page. -/
def Kind.afresh : Kind → Kind
  | page name _ _ => page name 1 false
  | k => k

/-- The copy of a node, given the identifiers of the copies, the document they belong to, and the
node that is copied with it or alone. -/
def Node.counterpart (owner : Option String) (document : Option NodeId) (deep : Bool)
    (root : NodeId) (f : NodeId → NodeId) (n : Node) : Node where
  kind := n.kind.afresh
  properties := { n.properties with owner }
  link := none
  id := f n.id
  parent := if n.id = root then none else n.parent.map f
  children := if deep then n.children.map f else []
  position := if n.id = root then 0 else n.position
  document := if n.kind.isPage then none else document
  component := none

namespace Tree

/-- The nodes that are copied together with `root`: those below it, or it alone. -/
def CopiedWith (t : Tree) (deep : Bool) (root x : NodeId) : Prop :=
  if deep then t.Within x root else x = root

/-- A tree has got copies of some of its nodes. They have new identifiers, different ones for
different nodes, and form one branch. Besides them every node is as it was, but that a page may have
another version. -/
structure Copied (owner : Option String) (document : Option NodeId) (deep : Bool) (root : NodeId)
    (f : NodeId → NodeId) (t t' : Tree) : Prop where
  counterpart : ∀ x n, t.CopiedWith deep root x → t.node? x = some n →
    t'.node? (f x) = some (n.counterpart owner document deep root f)
  new : ∀ x, t.CopiedWith deep root x → t.node? (f x) = none
  injective : ∀ x y, t.CopiedWith deep root x → t.CopiedWith deep root y → f x = f y → x = y
  within_iff : ∀ y, t'.Within y (f root) ↔ ∃ x, t.CopiedWith deep root x ∧ f x = y
  old : ∀ x n, t.node? x = some n → ∃ version, t'.node? x = some (n.withVersion version)
  old_or_copy : ∀ y n, t'.node? y = some n →
    (∃ m, t.node? y = some m) ∨ ∃ x, t.CopiedWith deep root x ∧ f x = y
  sharing : t'.sharing = t.sharing
  shadow : t'.shadow = t.shadow

end Tree

namespace Draft

open ContentTree.Tree (Rewritten)

variable {t : Tree} {d : Draft} {e : Editor} {owner : Option String} {deep : Bool}
  {root page x : NodeId} {f : NodeId → NodeId} {document : Option NodeId} {n m : Node} {b : Branch}

/-! ### Branches that are copied -/

/-- A node as it is copied, with or without what is below it. -/
def picked (deep : Bool) (n : Node) : Node :=
  { n with children := if deep then n.children else [] }

/-- A branch holds what is copied of a tree: a node with everything below it, or alone. -/
structure Holds (owner : Option String) (deep : Bool) (root : NodeId) (t : Tree) (b : Branch) :
    Prop where
  copies : Copies owner b
  plain : b.InnerPlain
  nodup : b.ids.Nodup
  id_eq : b.id = root
  mem_ids_iff : ∀ {x}, x ∈ b.ids ↔ t.CopiedWith deep root x
  mem_nodes : ∀ {x} {n : Node}, t.CopiedWith deep root x → t.node? x = some n →
    picked deep n ∈ b.nodes

/-- The branch that is copied by `Edit.clone`. -/
def branchToClone (t : Tree) (root : NodeId) (deep : Bool) (n : Node) : Branch :=
  if deep then (t.branch? root).getD ⟨n, []⟩ else ⟨n, []⟩

theorem exists_holds (owner : Option String) (deep : Bool) (ht : t.Sound)
    (hn : t.node? root = some n) :
    ∃ b, Holds owner deep root t b ∧ b.node.kind = n.kind ∧ b.node.document = n.document ∧
      ∀ d, cloneBranch owner (branchToClone t root deep n) d = cloneBranch owner b d := by
  obtain rfl := ht.keyed hn
  cases deep with
  | true =>
    obtain ⟨b, hb, rfl, hshows⟩ := ht.exists_branch hn
    refine ⟨b, ⟨copying owner ht.toWellFormed b hshows, ht.innerPlain hshows,
      hshows.nodup_ids ht.toWellFormed, rfl, hshows.mem_ids_iff ht.toWellFormed, ?_⟩, rfl, rfl, ?_⟩
    · intro x k hx hk
      obtain rfl := ht.keyed hk
      exact hshows.mem_of_within ht.toWellFormed hx hk
    · intro d
      rw [branchToClone, if_pos rfl, hb, Option.getD_some]
  | false =>
    -- Without what is below it the node is copied as if it had no children.
    refine ⟨⟨picked false n, []⟩, ⟨copying_leaf owner rfl, innerPlain_leaf _, ?_, rfl, ?_,
      ?_⟩, rfl, rfl, fun d => rfl⟩
    · exact List.nodup_singleton _
    · intro x
      exact List.mem_singleton
    · intro x k hx hk
      obtain rfl : x = n.id := hx
      obtain rfl := Option.some.inj (hk.symm.trans hn)
      exact List.mem_singleton.mpr rfl

/-! ### Copies in the end -/

/-- The draft of a tree that has got the copies, in the given document. -/
def withCopies (t : Tree) (owner : Option String) (b : Branch) (document : Option NodeId) : Draft :=
  (copy owner b (start t)).2.setDocument (copy owner b (start t)).1 document

theorem advance_of_not_page (pages : List NodeId) (hpage : n.kind.isPage = false) :
    advance pages n = n := by
  obtain ⟨version, hversion⟩ := exists_advance_eq pages n
  rw [hversion, Node.withVersion, Kind.withVersion_self fun v hv => ?_]
  exact absurd (Kind.isPage_of_version? hv) (by simp [hpage])

/-- The copy of a node in a document is what it will be, but for the version of a page. -/
theorem inDocument_copied : (if n.id = root then ((picked deep n).copied owner f).uprooted
    else (picked deep n).copied owner f).inDocument document =
      { n.counterpart owner document deep root f with
        kind := (n.toContent.copied owner).kind } := by
  have hpage : (n.toContent.copied owner).kind.isPage = n.kind.isPage :=
    Kind.isPage_eq_of_same (same_copied owner n.toContent)
  have hpicked : ((picked deep n).copied owner f).kind = (n.toContent.copied owner).kind := rfl
  rcases eq_or_ne n.id root with rfl | hid <;> cases deep <;> cases hp : n.kind.isPage <;>
    simp only [Node.inDocument, Node.counterpart, Node.uprooted, if_true, if_false,
      Bool.false_eq_true, *] <;> rfl

namespace Holds

variable (h : Holds owner deep root t b)
include h

/-- Only the root of what is copied can be a page. -/
theorem id_eq_of_page (hx : t.CopiedWith deep root x) (hn : t.node? x = some n)
    (hpage : n.kind.isPage = true) : n.id = root := by
  have hmem := h.mem_nodes hx hn
  rw [Branch.nodes_eq] at hmem
  rcases List.mem_cons.mp hmem with heq | hmem
  · exact (congrArg Node.id heq).trans h.id_eq
  · exact absurd (hpage.symm.trans (h.plain (picked deep n) hmem)) (by simp)

/-- The copy of a node when the transaction is over. -/
theorem advance_copied {pages : List NodeId} (hx : t.CopiedWith deep root x)
    (hn : t.node? x = some n) (hroot : n.kind.isPage = true → f root ∈ pages) :
    advance pages ((if n.id = root then ((picked deep n).copied owner f).uprooted
      else (picked deep n).copied owner f).inDocument document) =
        n.counterpart owner document deep root f := by
  have hid := h.id_eq_of_page hx hn
  rw [inDocument_copied]
  cases hk : n.kind with
  | page name version shadow =>
    rw [hk] at hid hroot
    have hmem : f n.id ∈ pages := hid rfl ▸ hroot rfl
    have hcopied : (n.toContent.copied owner).kind = .page name 0 false := by
      simp [Content.copied, hk]
    simp only [advance, Node.counterpart, hk, hcopied, if_pos hmem]
    rfl
  | _ =>
    rw [advance_of_not_page _ (by simp [Content.copied, hk, Kind.isPage])]
    simp [Node.counterpart, Content.copied, Kind.afresh, hk]

section

variable (ht : t.Sound) (hf : NumbersFrom t.lastId b.ids f)
include ht hf

theorem copy_fst_eq : (copy owner b (start t)).1 = f root := by
  rw [(h.copies (start t) f ht hf).1, h.id_eq]

theorem node?_withCopies (document : Option NodeId) (hx : t.CopiedWith deep root x)
    (hn : t.node? x = some n) :
    (withCopies t owner b document).tree.node? (f x) =
      some ((if n.id = root then ((picked deep n).copied owner f).uprooted
        else (picked deep n).copied owner f).inDocument document) := by
  obtain rfl := ht.keyed hn
  rw [withCopies, h.copy_fst_eq ht hf, ← h.id_eq]
  exact h.copies.node?_setDocument h.plain ht hf document (h.mem_nodes hx hn) h.nodup

theorem node?_withCopies_old (document : Option NodeId) (hx : x ≤ t.lastId) :
    (withCopies t owner b document).tree.node? x = t.node? x := by
  rw [withCopies, h.copy_fst_eq ht hf, ← h.id_eq]
  exact h.copies.node?_setDocument_old h.plain ht hf document hx

end

/-- What a transaction makes of a tree when it has written the copies into a document. -/
theorem copied (ht : t.Sound) (hf : NumbersFrom t.lastId b.ids f)
    (hchanges : (start t).Changes e d)
    (hd : d.tree = (withCopies t owner b document).tree) :
    t.Copied owner document deep root f d.bumpPages.tree := by
  have hsound := hchanges.sound ht
  have hg := rewritten_bumpPages hsound.keyed
  have hs : Rewritten.Still d.tree (advance d.touchedPages.toList) :=
    fun _ n _ => place_advance _ n
  have hself : t.CopiedWith deep root root := h.mem_ids_iff.mp (h.id_eq ▸ b.id_mem_ids)
  have hfree : ∀ x, t.CopiedWith deep root x → t.node? (f x) = none := fun x hx =>
    ht.node?_none_of_lt (hf.lt (h.mem_ids_iff.mpr hx))
  have hset : d.tree = ((copy owner b (start t)).2.setDocument (f b.id) document).tree := by
    rw [hd, withCopies, h.copy_fst_eq ht hf, h.id_eq]
  -- The copy of a page has been touched and encloses itself, so that its version goes up.
  have hpage : ∀ n, t.node? root = some n → n.kind.isPage = true → f root ∈ d.touchedPages := by
    intro n hn hpage
    have hcopy := hg.node?_of_some (hd.symm ▸ h.node?_withCopies ht hf document hself hn)
    refine hchanges.mem_touchedPages ht ?_ (.inl (Tree.closestPage?_of_page hcopy ?_))
    · rw [hcopy, hfree root hself]
      exact Option.some_ne_none _
    · rw [(Node.place_eq_iff.mp (place_advance _ _)).2.2.2.2, inDocument_copied]
      exact (Kind.isPage_eq_of_same (same_copied owner n.toContent)).trans hpage
  refine ⟨fun x n hx hn => ?counterpart, hfree, fun x y hx hy => ?injective, fun y => ?within_iff,
    fun x n hn => ?old, fun y n hn => ?old_or_copy, ?sharing, ?shadow⟩
  case counterpart =>
    rw [hg.node?, hd, h.node?_withCopies ht hf document hx hn, Option.map_some,
      h.advance_copied hx hn]
    intro hp
    have hid : x = root := (ht.keyed hn).symm.trans (h.id_eq_of_page hx hn hp)
    exact Std.ExtTreeSet.mem_toList.mpr (hpage n (hid ▸ hn) hp)
  case injective => exact hf.injective (h.mem_ids_iff.mpr hx) (h.mem_ids_iff.mpr hy)
  case within_iff =>
    rw [hg.within_eq hs, ← h.id_eq, hset, h.copies.within_iff h.plain ht hf document h.nodup]
    simp only [h.mem_ids_iff, h.id_eq]
  case old =>
    obtain ⟨version, hversion⟩ := exists_advance_eq d.touchedPages.toList n
    refine ⟨version, ?_⟩
    rw [hg.node?, hd, h.node?_withCopies_old ht hf document (ht.id_le_lastId hn), hn,
      Option.map_some, hversion]
  case old_or_copy =>
    obtain ⟨m, hm, -⟩ := hg.exists_of_some hn
    rcases Nat.lt_or_ge t.lastId y with hlt | hle
    · rw [hset] at hm
      obtain ⟨x, hx, hy⟩ := h.copies.exists_eq_of_lt h.plain ht hf document h.nodup hlt hm
      exact .inr ⟨x, h.mem_ids_iff.mp hx, hy⟩
    · rw [hd, h.node?_withCopies_old ht hf document hle] at hm
      exact .inl ⟨m, hm⟩
  case sharing =>
    obtain ⟨hgrown, -⟩ := h.copies.grown (d := start t) h.plain ht hf
    rw [hg.sharing, hset, (rewritten_setDocument hgrown.sound.keyed _ _).sharing, hgrown.sharing]
    rfl
  case shadow =>
    obtain ⟨hgrown, -⟩ := h.copies.grown (d := start t) h.plain ht hf
    rw [hg.shadow, hset, (rewritten_setDocument hgrown.sound.keyed _ _).shadow, hgrown.shadow]
    rfl

end Holds

/-! ### The operations -/

/-- Copying a node is never refused. -/
theorem exists_clone (e : Editor) (deep : Bool) (ht : t.Sound) (hn : t.node? root = some n) :
    ∃ b f, Holds e.principal.name? deep root t b ∧ NumbersFrom t.lastId b.ids f ∧
      (Edit.clone root deep).run e (start t) = (.ok (f root), withCopies t e.principal.name? b
        (if n.kind.isPage then some (f root) else n.document)) := by
  obtain ⟨b, h, hkind, hdocument, hsame⟩ := exists_holds e.principal.name? deep ht hn
  obtain ⟨f, hf⟩ := exists_numbersFrom t.lastId b.ids
  obtain ⟨hid, -⟩ := h.copies (start t) f ht hf
  rw [h.id_eq] at hid
  refine ⟨b, f, h, hf, ?_⟩
  have hrun : (Edit.clone root deep).run e (start t) =
      (.ok (cloneBranch e.principal.name? b (start t)).1,
        (cloneBranch e.principal.name? b (start t)).2) := by
    rw [← hsame, Edit.clone, Edit.run_bind, Edit.run_check, tree_start, Tree.require_eq_ok.mpr hn]
    rfl
  rw [hrun]
  simp only [cloneBranch, hkind, hdocument, withCopies, hid]

theorem run_adopt_eq_ok {r copy : NodeId} {d' : Draft} :
    (Edit.adopt page copy).run e d = (.ok r, d') ↔
      ((∃ m, d.tree.node? page = some m ∧ m.kind.isPage = true) ∧
        (∃ m, d.tree.node? page = some m ∧ e.access.canWrite e.principal m = true) ∧
        ∃ n, d.tree.node? copy = some n ∧ ¬ n.kind.isPage = true ∧
          ∀ p, d.tree.Under copy p → e.Unlocked d.tree p) ∧
      copy = r ∧ (d.detach copy).setDocument copy (some page) = d' := by
  have hwrite : ∀ d₁, (Edit.write (fun d => (d.detach copy).setDocument copy (some page)) >>=
      fun _ => pure copy : Edit NodeId).run e d₁ =
        (.ok copy, (d₁.detach copy).setDocument copy (some page)) := fun _ => rfl
  rw [Edit.adopt, Edit.run_bind_eq_ok]
  simp only [Edit.run_check_eq_ok, bind_eq_ok, exists_const, Tree.requirePage_eq_ok,
    Editor.mayWrite_eq_ok, Tree.require_eq_ok, ite_throw_bind_eq_ok, Editor.keepsSyncedParent_eq_ok]
  constructor
  · rintro ⟨_, ⟨hexamined, rfl⟩, hrun⟩
    rw [hwrite] at hrun
    obtain ⟨hr, hd⟩ := Prod.mk.inj hrun
    exact ⟨hexamined, Except.ok.inj hr, hd⟩
  · rintro ⟨hexamined, rfl, rfl⟩
    exact ⟨d, ⟨hexamined, rfl⟩, hwrite d⟩

/-- A node can be copied into another document exactly by those who may write the page. -/
theorem run_importNode_eq_ok (ht : t.Sound) (hn : t.node? root = some n)
    (hplain : n.kind.isPage = false) (hm : t.node? page = some m) (hpage : m.kind.isPage = true)
    (h : Holds e.principal.name? deep root t b) (hf : NumbersFrom t.lastId b.ids f)
    (hclone : (Edit.clone root deep).run e (start t) = (.ok (f root), d))
    (hd : d = withCopies t e.principal.name? b document) (r : NodeId) (d' : Draft) :
    (Edit.importNode page root deep).run e (start t) = (.ok r, d') ↔
      e.access.canWrite e.principal m = true ∧ f root = r ∧
        d.setDocument (f root) (some page) = d' := by
  have hself : t.CopiedWith deep root root := h.mem_ids_iff.mp (h.id_eq ▸ b.id_mem_ids)
  have hm' : d.tree.node? page = some m := by
    rw [hd, h.node?_withCopies_old ht hf _ (ht.id_le_lastId hm), hm]
  have hcopy := h.node?_withCopies ht hf document hself hn
  rw [inDocument_copied, ← hd] at hcopy
  have hroot : d.tree.parent? (f root) = none := by
    rw [Tree.parent?_eq hcopy, Node.counterpart, if_pos (ht.keyed hn)]
  constructor
  · intro hrun
    obtain ⟨_, _, hcheck, hrun⟩ := Edit.run_bind_eq_ok.mp hrun
    obtain ⟨-, rfl⟩ := Edit.run_check_eq_ok.mp hcheck
    obtain ⟨c, _, hcloned, hadopted⟩ := Edit.run_bind_eq_ok.mp hrun
    obtain ⟨hc, rfl⟩ := Prod.mk.inj (hclone.symm.trans hcloned)
    obtain rfl := Except.ok.inj hc
    obtain ⟨⟨-, ⟨k, hk, hwrite⟩, -⟩, rfl, rfl⟩ := run_adopt_eq_ok.mp hadopted
    obtain rfl := Option.some.inj (hm'.symm.trans hk)
    exact ⟨hwrite, rfl, by rw [detach_of_root hroot]⟩
  · rintro ⟨hwrite, rfl, rfl⟩
    have hadopted : (Edit.adopt page (f root)).run e d =
        (.ok (f root), d.setDocument (f root) (some page)) := by
      refine run_adopt_eq_ok.mpr ⟨⟨⟨m, hm', hpage⟩, ⟨m, hm', hwrite⟩, _, hcopy, ?_, fun p hp => ?_⟩,
        rfl, by rw [detach_of_root hroot]⟩
      · rw [Bool.not_eq_true]
        exact (Kind.isPage_eq_of_same (same_copied e.principal.name? n.toContent)).trans hplain
      · exact absurd (hroot.symm.trans hp) (Option.some_ne_none p).symm
    exact Edit.run_bind_eq_ok.mpr ⟨(), start t,
      Edit.run_check_eq_ok.mpr ⟨Tree.requirePage_eq_ok.mpr ⟨m, hm, hpage⟩, rfl⟩,
      Edit.run_bind_eq_ok.mpr ⟨f root, d, hclone, hadopted⟩⟩

end Draft

namespace Session

open Draft (Holds NumbersFrom)

variable {t : Tree} {root page : NodeId} {n m : Node}

/-- What a transaction that copies a node makes of a tree. With a store that takes everything it
succeeds, whoever the principal is. The copies belong to the document of the node, or to the copy
of the node if that is a page. A node other than a page can also be copied into another document
by whoever may write the page: the copies are the same, and they belong to that page. -/
theorem cloning (ht : t.Sound) (hn : t.node? root = some n) (e : Editor) (deep : Bool)
    (store : Store) : ∃ f,
      (store.Accepting → ∃ s, run e (Edit.clone root deep) ⟨t, store⟩ = (.ok (f root), s)) ∧
      (∀ copy s, run e (Edit.clone root deep) ⟨t, store⟩ = (.ok copy, s) → copy = f root ∧
        t.Copied e.principal.name?
          (if n.kind.isPage then some (f root) else t.document? root) deep root f s.tree) ∧
      ∀ page m, n.kind.isPage = false → t.node? page = some m → m.kind.isPage = true →
        (store.Accepting → e.access.canWrite e.principal m = true →
          ∃ s, run e (Edit.importNode page root deep) ⟨t, store⟩ = (.ok (f root), s)) ∧
        ∀ copy s, run e (Edit.importNode page root deep) ⟨t, store⟩ = (.ok copy, s) →
          copy = f root ∧ t.Copied e.principal.name? (some page) deep root f s.tree := by
  obtain ⟨b, f, h, hf, hclone⟩ := Draft.exists_clone e deep ht hn
  have hcloning : (Edit.clone root deep).Composed := .clone root deep
  refine ⟨f, fun hstore => ?_, fun copy s hrun => ?_, fun page m hplain hm hpage => ?_⟩
  · obtain ⟨store', hrun⟩ := run_ok hcloning ht hstore.closed hstore.persists hstore.commits hclone
    exact ⟨_, hrun⟩
  · obtain ⟨d, hd, -, htree⟩ := exists_run_of_run_eq_ok hcloning ht hrun
    have hchanges := hcloning.changes e (Draft.start t) ht
    rw [hclone] at hd hchanges
    obtain ⟨hcopy, rfl⟩ := Prod.mk.inj hd
    have hdocument : (if n.kind.isPage then some (f root) else t.document? root) =
        if n.kind.isPage then some (f root) else n.document := by
      rw [Tree.document?_eq hn, Node.owningPage]
      split <;> rfl
    rw [htree, hdocument]
    exact ⟨(Except.ok.inj hcopy).symm, h.copied ht hf hchanges rfl⟩
  have himport : (Edit.importNode page root deep).Composed := .importNode page root deep
  rw [hplain] at hclone
  have hruns := Draft.run_importNode_eq_ok ht hn hplain hm hpage h hf hclone rfl
  refine ⟨fun hstore hwrite => ?_, fun copy s hrun => ?_⟩
  · obtain ⟨store', hrun⟩ := run_ok himport ht hstore.closed hstore.persists hstore.commits
      ((hruns _ _).mpr ⟨hwrite, rfl, rfl⟩)
    exact ⟨_, hrun⟩
  · obtain ⟨d, hd, -, htree⟩ := exists_run_of_run_eq_ok himport ht hrun
    have hchanges := himport.changes e (Draft.start t) ht
    rw [hd] at hchanges
    obtain ⟨-, rfl, rfl⟩ := (hruns _ _).mp hd
    rw [htree]
    refine ⟨rfl, h.copied ht hf hchanges ?_⟩
    obtain ⟨hgrown, -⟩ := h.copies.grown (d := Draft.start t) h.plain ht hf
    rw [Draft.withCopies, Draft.withCopies, h.copy_fst_eq ht hf,
      Draft.tree_setDocument_setDocument hgrown.sound.toWellFormed]

/-- A page is copied with its texts, and one of the texts is copied again into the page. -/
theorem cloning_twoTexts :
    (∃ f s, run ⟨.user "ann" false, .unrestricted, .reject⟩ (Edit.clone 1 true)
        ⟨(({} : Tree).load Tree.twoTexts).2, {}⟩ = (.ok (f 1), s) ∧
      (({} : Tree).load Tree.twoTexts).2.Copied (some "ann") (some (f 1)) true 1 f s.tree) ∧
    ∃ f s, run ⟨.user "ann" false, .unrestricted, .reject⟩ (Edit.importNode 1 2 false)
        ⟨(({} : Tree).load Tree.twoTexts).2, {}⟩ = (.ok (f 2), s) ∧
      (({} : Tree).load Tree.twoTexts).2.Copied (some "ann") (some 1) false 2 f s.tree := by
  have hsound := Tree.reachable_twoTexts.sound
  have hstore : Store.Accepting {} := ⟨rfl, rfl, rfl⟩
  obtain ⟨page, hpage, hkind⟩ : ∃ n, (({} : Tree).load Tree.twoTexts).2.node? 1 = some n ∧
      n.kind.isPage = true := ⟨_, by rfl, rfl⟩
  obtain ⟨text, htext, hplain⟩ : ∃ n, (({} : Tree).load Tree.twoTexts).2.node? 2 = some n ∧
      n.kind.isPage = false := ⟨_, by rfl, rfl⟩
  constructor
  · obtain ⟨f, hruns, hcopied, -⟩ :=
      cloning hsound hpage ⟨.user "ann" false, .unrestricted, .reject⟩ true {}
    obtain ⟨s, hs⟩ := hruns hstore
    obtain ⟨-, h⟩ := hcopied _ s hs
    rw [hkind] at h
    exact ⟨f, s, hs, h⟩
  · obtain ⟨f, -, -, himport⟩ :=
      cloning hsound htext ⟨.user "ann" false, .unrestricted, .reject⟩ false {}
    obtain ⟨hruns, hcopied⟩ := himport 1 page hplain hpage hkind
    obtain ⟨s, hs⟩ := hruns hstore rfl
    exact ⟨f, s, hs, (hcopied _ s hs).2⟩

end Session

end ContentTree
