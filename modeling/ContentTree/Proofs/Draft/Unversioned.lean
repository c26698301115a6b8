import ContentTree.Proofs.Draft.Inward
import ContentTree.Proofs.Tree.Renaming

/-!
# Trees without the versions of their pages

Two trees may be the same but for the versions of pages. No write looks at a version: what it makes
of two such trees is the same again but for the versions.

## Main definitions

* `Tree.unversioned`: a tree in which all pages have the version 0.

## Main results

* `Tree.branch?_congr`: the branches of trees that are the same but for versions.
* `Draft.unversioned_modify`, `Draft.unversioned_place`, …: what is written to such trees.
* `Draft.unversioned_bumpPages`: the end of a transaction concerns nothing but versions.
-/

namespace ContentTree

/-! ### Nodes -/

/-- A content without the version. -/
def Content.unversioned (c : Content) : Content := { c with kind := c.kind.withVersion 0 }

namespace Node

variable {n n' : Node}

/-- A node without the version, if it is a page. -/
def unversioned (n : Node) : Node := n.withVersion 0

theorem place_unversioned (n : Node) : n.unversioned.place = n.place := by
  simp [unversioned, withVersion, place, Draft.isPage_withVersion]

theorem unversioned_withVersion (n : Node) (version : Nat) :
    (n.withVersion version).unversioned = n.unversioned := n.withVersion_withVersion version 0

section

variable (h : n.unversioned = n'.unversioned)
include h

theorem id_eq_of_unversioned_eq : n.id = n'.id := by
  have hid := congrArg (fun n : Node => n.id) h
  exact hid

theorem same_of_unversioned_eq : n.kind.same n'.kind = true :=
  Kind.same_of_withVersion_eq (congrArg (fun n => n.kind) h)

theorem isPage_eq_of_unversioned_eq : n.kind.isPage = n'.kind.isPage :=
  (Kind.isPage_eq_of_same (same_of_unversioned_eq h)).symm

end

end Node

theorem Branch.node_congr {b b' : Branch}
    (h : b.map Node.unversioned = b'.map Node.unversioned) :
    b.node.unversioned = b'.node.unversioned := by
  have hnode := congrArg Branch.node h
  rwa [node_map, node_map] at hnode

/-! ### Trees -/

namespace Tree

variable {t t' : Tree} {x : NodeId} {n n' : Node}

/-- A tree in which all pages have the version 0. -/
def unversioned (t : Tree) : Tree :=
  { t with nodes := t.nodes.map fun _ n => n.unversioned }

theorem rewritten_unversioned (t : Tree) : Rewritten Node.unversioned t t.unversioned :=
  ⟨fun _ => Std.ExtTreeMap.getElem?_map, rfl⟩

theorem still_unversioned (t : Tree) : Rewritten.Still t Node.unversioned :=
  fun _ n _ => n.place_unversioned

theorem unversioned_eq_iff : t.unversioned = t'.unversioned ↔
    (∀ x, (t.node? x).map Node.unversioned = (t'.node? x).map Node.unversioned) ∧
      t.rest = t'.rest := by
  have hg := t.rewritten_unversioned
  have hg' := t'.rewritten_unversioned
  simp only [← hg.node?, ← hg'.node?, ← hg.rest, ← hg'.rest]
  exact ⟨fun h => ⟨fun x => by rw [h], by rw [h]⟩, fun h => ext_node? h.1 h.2⟩

section

variable (h : t.unversioned = t'.unversioned)
include h

theorem rest_congr : t.rest = t'.rest := (unversioned_eq_iff.mp h).2

theorem sharing_congr : t.sharing = t'.sharing := congrArg Prod.fst (rest_congr h)

theorem lastId_congr : t.lastId = t'.lastId := congrArg (·.2.1) (rest_congr h)

theorem shadow_congr : t.shadow = t'.shadow := congrArg (·.2.2) (rest_congr h)

/-- Both trees have a node under an identifier, or none. -/
theorem node?_congr (x : NodeId) : (t.node? x = none ∧ t'.node? x = none) ∨
    ∃ n n', t.node? x = some n ∧ t'.node? x = some n' ∧ n.unversioned = n'.unversioned := by
  have hx := (unversioned_eq_iff.mp h).1 x
  cases hn : t.node? x <;> cases hn' : t'.node? x <;> simp_all

theorem children_congr (x : NodeId) : t.children x = t'.children x := by
  rw [← t.rewritten_unversioned.children_eq t.still_unversioned, h,
    t'.rewritten_unversioned.children_eq t'.still_unversioned]

theorem parent?_congr (x : NodeId) : t.parent? x = t'.parent? x := by
  rw [← t.rewritten_unversioned.parent?_eq t.still_unversioned, h,
    t'.rewritten_unversioned.parent?_eq t'.still_unversioned]

theorem document?_congr (x : NodeId) : t.document? x = t'.document? x := by
  rw [← t.rewritten_unversioned.document? fun n => n.owningPage_withVersion 0, h,
    t'.rewritten_unversioned.document? fun n => n.owningPage_withVersion 0]

theorem isAncestor_congr (x y : NodeId) : t.isAncestor x y = t'.isAncestor x y := by
  rw [isAncestor, isAncestor, ← t.rewritten_unversioned.ancestors_eq t.still_unversioned, h,
    t'.rewritten_unversioned.ancestors_eq t'.still_unversioned]

theorem isSynced_congr (x : NodeId) : t.isSynced x = t'.isSynced x := by
  rw [isSynced, isSynced, sharing_congr h]

end

/-- The branches of a tree without versions. -/
theorem branch?_unversioned (t : Tree) (x : NodeId) :
    t.unversioned.branch? x = (t.branch? x).map (Branch.map Node.unversioned) := by
  have hwithin : ∀ fuel x, t.unversioned.branchWithin fuel x =
      (t.branchWithin fuel x).map (Branch.map Node.unversioned) := by
    intro fuel
    induction fuel with
    | zero => exact fun x => rfl
    | succ fuel ih =>
      intro x
      rw [branchWithin, branchWithin, t.rewritten_unversioned.node?, Option.map_map, Option.map_map]
      congr 1
      funext n
      simp only [Function.comp, Branch.map_mk, List.map_filterMap, ← ih]
      rfl
  rw [branch?, branch?, t.rewritten_unversioned.size_eq, hwithin]

theorem branch?_congr (h : t.unversioned = t'.unversioned) (x : NodeId) :
    (t.branch? x).map (Branch.map Node.unversioned) =
      (t'.branch? x).map (Branch.map Node.unversioned) := by
  rw [← branch?_unversioned, h, branch?_unversioned]

theorem branchIds_congr (h : t.unversioned = t'.unversioned) (x : NodeId) :
    t.branchIds x = t'.branchIds x := by
  have hids : ∀ t : Tree, t.branchIds x =
      (((t.branch? x).map (Branch.map Node.unversioned)).map Branch.ids).getD [] := by
    intro t
    rw [branchIds, branchNodes]
    cases t.branch? x with
    | none => rfl
    | some b =>
      have hmap : (b.map Node.unversioned).ids = b.ids.map fun x => x :=
        Branch.ids_map (fun _ => rfl) b
      simp only [Option.map_some, Option.getD_some, hmap, List.map_id']
      rfl
  rw [hids, hids t', branch?_congr h]

theorem unversioned_sharing (h : t.unversioned = t'.unversioned) (s : Sharing) :
    unversioned { t with sharing := s } = unversioned { t' with sharing := s } :=
  congrArg (fun t : Tree => { t with sharing := s }) h

theorem unversioned_shadow (h : t.unversioned = t'.unversioned) (shadow : Option NodeId) :
    unversioned { t with shadow } = unversioned { t' with shadow } :=
  congrArg (fun t : Tree => { t with shadow }) h

end Tree

/-! ### Writes -/

namespace Draft

variable {d d' : Draft} {n n' : Node} {f f' : Node → Node}

/-- A run of writes, one for each element of a list. -/
theorem unversioned_foldl {α : Type} {step : Draft → α → Draft}
    (hstep : ∀ (d d' : Draft) (a : α), d.tree.unversioned = d'.tree.unversioned →
      (step d a).tree.unversioned = (step d' a).tree.unversioned) (as : List α) :
    ∀ d d' : Draft, d.tree.unversioned = d'.tree.unversioned →
      (as.foldl step d).tree.unversioned = (as.foldl step d').tree.unversioned := by
  induction as with
  | nil => exact fun d d' h => h
  | cons a as ih => exact fun d d' h => ih _ _ (hstep d d' a h)

/-- Of two contents that are the same but for versions one gets nodes that are. -/
theorem unversioned_recast (content : Content) (n : Node) :
    (recast content n).unversioned =
      { n.unversioned with toContent := content.unversioned } := by
  unfold recast
  cases n.kind.version? <;>
    simp [Node.unversioned, Node.withVersion, Content.unversioned]

section

variable (h : d.tree.unversioned = d'.tree.unversioned)
include h

theorem unversioned_put (hn : n.unversioned = n'.unversioned) :
    (d.put n).tree.unversioned = (d'.put n').tree.unversioned := by
  have hid := Node.id_eq_of_unversioned_eq hn
  refine Tree.unversioned_eq_iff.mpr ⟨fun x => ?_, (Tree.rest_congr h :)⟩
  rw [node?_put, node?_put, hid]
  split
  · exact congrArg some hn
  · exact (Tree.unversioned_eq_iff.mp h).1 x

theorem unversioned_modify (x : NodeId)
    (hf : ∀ n n', n.unversioned = n'.unversioned → (f n).unversioned = (f' n').unversioned) :
    (d.modify x f).tree.unversioned = (d'.modify x f').tree.unversioned := by
  rw [modify, modify]
  rcases Tree.node?_congr h x with ⟨hn, hn'⟩ | ⟨n, n', hn, hn', heq⟩
  · rw [hn, hn']
    exact h
  · rw [hn, hn']
    exact unversioned_put h (hf n n' heq)

/-- A write that does not look at the version. -/
theorem unversioned_modify_of_commute (x : NodeId)
    (hf : ∀ n, (f n).unversioned = f n.unversioned) :
    (d.modify x f).tree.unversioned = (d'.modify x f).tree.unversioned :=
  unversioned_modify h x fun n n' heq => by rw [hf, hf, heq]

theorem unversioned_addAt (x : NodeId) (content : Content) :
    (d.addAt x content).tree.unversioned = (d'.addAt x content).tree.unversioned := by
  have hput := unversioned_put h (n := Node.ofContent x content) rfl
  refine Tree.unversioned_eq_iff.mpr ⟨(Tree.unversioned_eq_iff.mp hput).1, ?_⟩
  simp only [Tree.rest, addAt]
  rw [Tree.sharing_congr hput, Tree.shadow_congr hput, Tree.lastId_congr hput]

theorem unversioned_renumber (parent : NodeId) (first : Nat) :
    (d.renumber parent first).tree.unversioned = (d'.renumber parent first).tree.unversioned := by
  rw [renumber, renumber, Tree.children_congr h]
  refine unversioned_foldl (fun d d' child h => ?_) _ d d' h
  exact unversioned_modify_of_commute h child.1 fun _ => rfl

theorem unversioned_attach (parent child : NodeId) (index : Nat) :
    (d.attach parent child index).tree.unversioned =
      (d'.attach parent child index).tree.unversioned := by
  rw [attach, attach, Tree.children_congr h]
  refine unversioned_renumber ?_ _ _
  refine unversioned_modify_of_commute ?_ _ fun _ => rfl
  exact unversioned_modify_of_commute h _ fun _ => rfl

theorem unversioned_detach (child : NodeId) :
    (d.detach child).tree.unversioned = (d'.detach child).tree.unversioned := by
  rw [detach, detach, Tree.parent?_congr h]
  cases d'.tree.parent? child with
  | none => exact h
  | some parent =>
    dsimp only
    rw [Tree.children_congr h]
    refine unversioned_renumber ?_ _ _
    refine unversioned_modify_of_commute ?_ _ fun _ => rfl
    exact unversioned_modify_of_commute h _ fun _ => rfl

theorem unversioned_setDocument (root : NodeId) (document : Option NodeId) :
    (d.setDocument root document).tree.unversioned =
      (d'.setDocument root document).tree.unversioned := by
  have hfold : ∀ d : Draft, d.setDocument root document = (d.tree.branchIds root).foldl
      (fun d x => d.modify x fun n => if n.kind.isPage then n else { n with document }) d := by
    intro d
    rw [Tree.branchIds, List.foldl_map]
    rfl
  rw [hfold, hfold, Tree.branchIds_congr h]
  refine unversioned_foldl (fun d d' x h => ?_) _ d d' h
  refine unversioned_modify_of_commute h x fun n => ?_
  have hpage : n.unversioned.kind.isPage = n.kind.isPage := isPage_withVersion _ _
  rw [hpage]
  split <;> rfl

theorem unversioned_setContent (x : NodeId) {content content' : Content}
    (hcontent : content.unversioned = content'.unversioned) :
    (d.setContent x content).tree.unversioned = (d'.setContent x content').tree.unversioned := by
  change (d.modify x (recast content)).tree.unversioned =
    (d'.modify x (recast content')).tree.unversioned
  refine unversioned_modify h x fun n n' heq => ?_
  rw [unversioned_recast, unversioned_recast, hcontent, heq]

theorem unversioned_link (mirror component : NodeId) :
    (d.link mirror component).tree.unversioned = (d'.link mirror component).tree.unversioned := by
  rw [tree_link, tree_link, Tree.sharing_congr h]
  refine Tree.unversioned_sharing ?_ _
  exact unversioned_modify_of_commute h mirror fun _ => rfl

theorem unversioned_unlink (mirror : NodeId) :
    (d.unlink mirror).tree.unversioned = (d'.unlink mirror).tree.unversioned := by
  rw [tree_unlink, tree_unlink, Tree.sharing_congr h]
  refine Tree.unversioned_sharing ?_ _
  exact unversioned_modify_of_commute h mirror fun _ => rfl

theorem unversioned_discard (x : NodeId) :
    (d.discard x).tree.unversioned = (d'.discard x).tree.unversioned :=
  unversioned_setDocument (unversioned_detach h x) x none

omit h in
theorem indexFor_congr {t t' : Tree} (h : t.unversioned = t'.unversioned) (parent : NodeId)
    (reference : Option NodeId) : indexFor t parent reference = indexFor t' parent reference := by
  rw [indexFor, indexFor, Tree.children_congr h]
  cases reference with
  | none => rfl
  | some r =>
    rw [Option.bind_some, Option.bind_some]
    rcases Tree.node?_congr h r with ⟨hn, hn'⟩ | ⟨n, n', hn, hn', heq⟩
    · rw [hn, hn']
    · rw [hn, hn']
      have hposition := congrArg (fun n : Node => n.position) heq
      exact hposition

theorem unversioned_place (parent child : NodeId) (reference : Option NodeId) :
    (d.place parent child reference).tree.unversioned =
      (d'.place parent child reference).tree.unversioned := by
  have hdetach := unversioned_detach h child
  have hindex := indexFor_congr hdetach parent reference
  have hsettle : (d.settle parent child reference).tree.unversioned =
      (d'.settle parent child reference).tree.unversioned := by
    rw [settle, settle, hindex]
    exact unversioned_attach hdetach _ _ _
  rw [place_eq, place_eq, Tree.document?_congr hsettle, Tree.document?_congr hsettle]
  split
  · exact hsettle
  · exact unversioned_setDocument hsettle _ _

end

/-! ### Copies -/

theorem copied_unversioned (owner : Option String) (c : Content) :
    c.unversioned.copied owner = c.copied owner := by
  obtain ⟨kind, properties, link⟩ := c
  cases kind <;> rfl

/-- Copying does not look at the versions in a branch. -/
theorem copy_unversioned (owner : Option String) (b : Branch) :
    ∀ d, copy owner (b.map Node.unversioned) d = copy owner b d := by
  induction b with
  | mk n cs ih =>
    have hchildren : ∀ p d, copy.copyChildren owner p (cs.map (Branch.map Node.unversioned)) d =
        copy.copyChildren owner p cs d := by
      intro p
      induction cs with
      | nil => exact fun _ => rfl
      | cons c cs ihcs =>
        intro d
        rw [List.map_cons, copy.copyChildren, copy.copyChildren, ih c List.mem_cons_self]
        exact ihcs (fun c hc => ih c (List.mem_cons_of_mem _ hc)) _
    intro d
    rw [Branch.map_mk, copy, copy, show n.unversioned.toContent = n.toContent.unversioned from rfl,
      copied_unversioned]
    exact congrArg (Prod.mk _) (hchildren _ _)

/-- Copies of one branch are alike in trees that are. -/
theorem unversioned_copy (owner : Option String) (b : Branch) :
    ∀ d d' : Draft, d.tree.unversioned = d'.tree.unversioned →
      (copy owner b d).1 = (copy owner b d').1 ∧
        (copy owner b d).2.tree.unversioned = (copy owner b d').2.tree.unversioned := by
  induction b with
  | mk n cs ih =>
    have hchildren : ∀ (p : NodeId) (d d' : Draft), d.tree.unversioned = d'.tree.unversioned →
        (copy.copyChildren owner p cs d).tree.unversioned =
          (copy.copyChildren owner p cs d').tree.unversioned := by
      intro p
      induction cs with
      | nil => exact fun _ _ h => h
      | cons c cs ihcs =>
        intro d d' h
        obtain ⟨hid, hcopy⟩ := ih c List.mem_cons_self d d' h
        rw [copy.copyChildren, copy.copyChildren]
        refine ihcs (fun c hc => ih c (List.mem_cons_of_mem _ hc)) _ _ ?_
        rw [hid, Tree.children_congr hcopy]
        exact unversioned_attach hcopy _ _ _
    intro d d' h
    have hnext : d.nextId = d'.nextId := congrArg (· + 1) (Tree.lastId_congr h)
    rw [copy, copy, add, add, hnext]
    exact ⟨rfl, hchildren _ _ _ (unversioned_addAt h _ _)⟩

theorem unversioned_cloneBranch (owner : Option String) {b b' : Branch}
    (hb : b.map Node.unversioned = b'.map Node.unversioned)
    (h : d.tree.unversioned = d'.tree.unversioned) :
    (cloneBranch owner b d).1 = (cloneBranch owner b' d').1 ∧
      (cloneBranch owner b d).2.tree.unversioned =
        (cloneBranch owner b' d').2.tree.unversioned := by
  have hnode := Branch.node_congr hb
  have hdocument : b.node.document = b'.node.document := by
    have hdocument := congrArg (fun n : Node => n.document) hnode
    exact hdocument
  have hsame : copy owner b d = copy owner b' d := by
    rw [← copy_unversioned owner b, hb, copy_unversioned]
  obtain ⟨hid, hcopy⟩ := unversioned_copy owner b' d d' h
  rw [← hsame] at hid hcopy
  refine ⟨hid, ?_⟩
  have hclone : ∀ b d, (cloneBranch owner b d).2 =
      (copy owner b d).2.setDocument (copy owner b d).1
        (if b.node.kind.isPage then some (copy owner b d).1 else b.node.document) :=
    fun _ _ => rfl
  rw [hclone, hclone, hid, Node.isPage_eq_of_unversioned_eq hnode, hdocument]
  exact unversioned_setDocument hcopy _ _

theorem unversioned_ensureShadow (h : d.tree.unversioned = d'.tree.unversioned) :
    d.ensureShadow.1 = d'.ensureShadow.1 ∧
      d.ensureShadow.2.tree.unversioned = d'.ensureShadow.2.tree.unversioned := by
  rw [ensureShadow, ensureShadow, Tree.shadow_congr h]
  cases d'.tree.shadow with
  | some page => exact ⟨rfl, h⟩
  | none =>
    have hnext : d.nextId = d'.nextId := congrArg (· + 1) (Tree.lastId_congr h)
    dsimp only [add]
    rw [hnext]
    exact ⟨rfl, Tree.unversioned_shadow (unversioned_addAt h _ _) _⟩

theorem unversioned_shareBranch (owner : Option String) {b b' : Branch}
    (hb : b.map Node.unversioned = b'.map Node.unversioned)
    (h : d.tree.unversioned = d'.tree.unversioned) :
    (Edit.shareBranch owner b d).1 = (Edit.shareBranch owner b' d').1 ∧
      (Edit.shareBranch owner b d).2.tree.unversioned =
        (Edit.shareBranch owner b' d').2.tree.unversioned := by
  obtain ⟨hshadow, hensured⟩ := unversioned_ensureShadow h
  obtain ⟨hid, hcloned⟩ := unversioned_cloneBranch owner hb hensured
  refine ⟨hid, ?_⟩
  have hshared : (shared owner b d).tree.unversioned = (shared owner b' d').tree.unversioned := by
    simp only [shared]
    rw [hshadow, hid, Tree.children_congr hcloned]
    exact unversioned_attach hcloned _ _ _
  have hroot : b.id = b'.id := Node.id_eq_of_unversioned_eq (Branch.node_congr hb)
  rw [shareBranch_eq, shareBranch_eq, hshadow, hid, hroot]
  exact unversioned_link (unversioned_setDocument hshared _ _) _ _

/-! ### The end of a transaction -/

/-- The end of a transaction concerns nothing but versions. -/
theorem unversioned_bumpPages (h : d.tree.Keyed) :
    d.bumpPages.tree.unversioned = d.tree.unversioned := by
  have hg := rewritten_bumpPages h
  refine Tree.unversioned_eq_iff.mpr ⟨fun x => ?_, hg.rest⟩
  rw [hg.node?, Option.map_map]
  congr 1
  funext n
  obtain ⟨version, hversion⟩ := exists_advance_eq d.touchedPages.toList n
  rw [Function.comp, hversion, Node.unversioned_withVersion]

end Draft

end ContentTree
