import ContentTree.Proofs.Draft.Replant

/-!
# Copies of branches

The copies of the nodes of a branch get consecutive identifiers in document order. Copying reads the
branch and writes new nodes only, so that each of them comes to stand where the copy of its source
belongs, and no node that was there before is concerned.

## Main definitions

* `Node.copied`: the copy of a node, given the identifiers of the copies.
* `Draft.NumbersFrom`: nodes are numbered one after the other.
* `Draft.Copying`: a draft has got the copies of some nodes.
* `Draft.Copies`: the copy of a branch is a new root with the copies of all nodes below it.

## Main results

* `Draft.copying`: copying does that to every branch of a well-formed tree.
* `Copies.node?_setDocument`, `Copies.within_iff`: the copies in a document.
-/

namespace ContentTree

/-- The copy of a node outside every document, given the identifiers of the copies. -/
def Node.copied (owner : Option String) (f : NodeId → NodeId) (n : Node) : Node :=
  { n.toContent.copied owner with
    id := f n.id
    parent := n.parent.map f
    children := n.children.map f
    position := n.position }

/-- A node in a document. Pages record none. -/
def Node.inDocument (document : Option NodeId) (n : Node) : Node :=
  if n.kind.isPage then n else { n with document }

namespace Branch

theorem nodes_eq (b : Branch) : b.nodes = b.node :: b.inner := by
  cases b
  exact nodes_mk _ _

theorem ne_id_of_mem_inner {b : Branch} {n : Node} (h : b.ids.Nodup) (hn : n ∈ b.inner) :
    n.id ≠ b.id := by
  rw [ids, nodes_eq, List.map_cons, List.nodup_cons] at h
  exact fun heq => h.1 (List.mem_map.mpr ⟨n, hn, heq⟩)

theorem length_ids (b : Branch) : b.ids.length = b.inner.length + 1 := by
  rw [ids, List.length_map, nodes_eq, List.length_cons]

end Branch

namespace Draft

variable {t : Tree} {d d' d'' : Draft} {owner : Option String} {f : NodeId → NodeId}
  {p x : NodeId} {m n : Node} {b c : Branch} {ns ns' : List Node}

/-! ### New identifiers -/

/-- Nodes are numbered one after the other from the identifier after `last` on. -/
def NumbersFrom (last : NodeId) (xs : List NodeId) (f : NodeId → NodeId) : Prop :=
  ∀ x ∈ xs, f x = last + 1 + xs.idxOf x

namespace NumbersFrom

variable {last x y : Nat} {xs ys : List Nat} {f : Nat → Nat}

theorem head (h : NumbersFrom last (x :: xs) f) : f x = last + 1 := by
  rw [h x List.mem_cons_self, List.idxOf_cons_self, Nat.add_zero]

theorem tail (h : NumbersFrom last (x :: xs) f) (hx : x ∉ xs) : NumbersFrom (last + 1) xs f := by
  intro y hy
  have hne : x ≠ y := fun heq => hx (heq ▸ hy)
  rw [h y (List.mem_cons_of_mem _ hy), List.idxOf_cons_ne _ hne]
  exact Nat.add_right_comm (last + 1) _ 1

theorem left (h : NumbersFrom last (xs ++ ys) f) : NumbersFrom last xs f := by
  intro x hx
  rw [h x (List.mem_append_left _ hx), List.idxOf_append_of_mem hx]

theorem right (h : NumbersFrom last (xs ++ ys) f) (hdisjoint : ∀ x ∈ xs, x ∉ ys) :
    NumbersFrom (last + xs.length) ys f := by
  intro y hy
  have hnot : y ∉ xs := fun hyx => hdisjoint y hyx hy
  have hindex := h y (List.mem_append_right _ hy)
  rw [List.idxOf_append_of_notMem hnot] at hindex
  change f y = last + xs.length + 1 + ys.idxOf y
  change f y = last + 1 + (xs.length + ys.idxOf y) at hindex
  omega

theorem lt (h : NumbersFrom last xs f) (hx : x ∈ xs) : last < f x := by
  have hindex : f x = last + 1 + xs.idxOf x := h x hx
  omega

theorem le (h : NumbersFrom last xs f) (hx : x ∈ xs) : f x ≤ last + xs.length := by
  have hindex : f x = last + 1 + xs.idxOf x := h x hx
  have hlt : xs.idxOf x < xs.length := List.idxOf_lt_length_of_mem hx
  omega

/-- Different nodes are numbered differently. -/
theorem injective (h : NumbersFrom last xs f) (hx : x ∈ xs) (hy : y ∈ xs) (heq : f x = f y) :
    x = y := by
  have hindex : f x = last + 1 + xs.idxOf x := h x hx
  have hindex' : f y = last + 1 + xs.idxOf y := h y hy
  exact (List.idxOf_inj hx).mp (by omega)

/-- No number is left out. -/
theorem exists_eq (h : NumbersFrom last xs f) (hnodup : xs.Nodup) (hlt : last < x)
    (hle : x ≤ last + xs.length) : ∃ y ∈ xs, f y = x := by
  have hbound : x - last - 1 < xs.length := by omega
  have hindex : f xs[x - last - 1] = last + 1 + xs.idxOf xs[x - last - 1] :=
    h _ (List.getElem_mem hbound)
  rw [hnodup.idxOf_getElem _ hbound] at hindex
  exact ⟨xs[x - last - 1], List.getElem_mem hbound, by omega⟩

end NumbersFrom

theorem exists_numbersFrom (last : NodeId) (xs : List NodeId) : ∃ f, NumbersFrom last xs f :=
  ⟨fun x => last + 1 + xs.idxOf x, fun _ _ => rfl⟩

/-! ### Copies of children -/

/-- A draft has got copies of nodes, one of those that were there before may have become another
node, and the others are as they were. -/
structure Copying (owner : Option String) (f : NodeId → NodeId) (ns : List Node) (x : NodeId)
    (m : Node) (d d' : Draft) : Prop where
  lastId : d'.tree.lastId = d.tree.lastId + ns.length
  top : d'.tree.node? x = some m
  node? : ∀ n ∈ ns, d'.tree.node? (f n.id) = some (n.copied owner f)
  old : ∀ y ≤ d.tree.lastId, y ≠ x → d'.tree.node? y = d.tree.node? y

theorem Copying.append (h : Copying owner f ns x m d d') (h' : Copying owner f ns' x n d' d'')
    (hns : ∀ k ∈ ns, f k.id ≤ d'.tree.lastId ∧ f k.id ≠ x) :
    Copying owner f (ns ++ ns') x n d d'' where
  lastId := by rw [h'.lastId, h.lastId, List.length_append, Nat.add_assoc]
  top := h'.top
  node? k hk := by
    rcases List.mem_append.mp hk with hk | hk
    · rw [h'.old _ (hns k hk).1 (hns k hk).2, h.node? k hk]
    · exact h'.node? k hk
  old y hle hne := by
    have hle' : y ≤ d'.tree.lastId := h.lastId ▸ Nat.le_add_right_of_le hle
    rw [h'.old y hle' hne, h.old y hle hne]

/-- The copy of a branch is a new root with the copies of all nodes below it. -/
def Copies (owner : Option String) (b : Branch) : Prop :=
  ∀ (d : Draft) (f : NodeId → NodeId), d.tree.Sound → NumbersFrom d.tree.lastId b.ids f →
    (copy owner b d).1 = f b.id ∧
      Copying owner f b.inner (f b.id) (b.node.copied owner f).uprooted
        (d.addAt d.nextId (b.node.toContent.copied owner)) (copy owner b d).2

theorem nextId_eq (hf : NumbersFrom d.tree.lastId b.ids f) : d.nextId = f b.id := by
  have hroot : NumbersFrom d.tree.lastId (b.id :: b.children.flatMap Branch.ids) f := b.ids_eq ▸ hf
  exact hroot.head.symm

theorem lastId_addAt_nextId (d : Draft) (content : Content) :
    (d.addAt d.nextId content).tree.lastId = d.tree.lastId + 1 :=
  Nat.max_eq_right (Nat.le_succ _)

namespace Copies

variable (h : Copies owner b) (hd : d.tree.Sound) (hf : NumbersFrom d.tree.lastId b.ids f)
include h hd hf

theorem lastId_eq : (copy owner b d).2.tree.lastId = d.tree.lastId + b.ids.length := by
  rw [(h d f hd hf).2.lastId, lastId_addAt_nextId, b.length_ids, Nat.add_comm b.inner.length,
    Nat.add_assoc]

theorem node?_old (hx : x ≤ d.tree.lastId) : (copy owner b d).2.tree.node? x = d.tree.node? x := by
  have hlt : x < d.nextId := Nat.lt_succ_of_le hx
  have hbase : (d.addAt d.nextId (b.node.toContent.copied owner)).tree.node? x =
      d.tree.node? x := by
    rw [node?_addAt, if_neg (Nat.ne_of_lt hlt)]
  rw [← hbase]
  refine (h d f hd hf).2.old x (hx.trans (Nat.le_max_left _ _)) ?_
  rw [← nextId_eq hf]
  exact Nat.ne_of_lt hlt

end Copies

/-- The copy of a child comes to stand after the copies of the children before it. -/
theorem copying_child (ht : t.WellFormed) (hcopies : Copies owner c) (hshows : c.Shows t)
    (hpage : c.node.kind.isPage = false) (hplain : c.InnerPlain) (hd : d.tree.Sound)
    (hm : d.tree.node? (f p) = some m) (hget : (t.children p)[m.children.length]? = some c.id)
    (hf : NumbersFrom d.tree.lastId c.ids f) :
    ((copy owner c d).2.attach (f p) (copy owner c d).1
        ((copy owner c d).2.tree.children (f p)).length).tree.Sound ∧
      Copying owner f c.nodes (f p) (m.extended [f c.id]) d
        ((copy owner c d).2.attach (f p) (copy owner c d).1
          ((copy owner c d).2.tree.children (f p)).length) := by
  obtain ⟨hgrown, hnew⟩ := grown_copy owner c d hd hplain
  obtain ⟨hid, hcopying⟩ := hcopies d f hd hf
  have hlast := hcopies.lastId_eq hd hf
  have hold := fun {x} => hcopies.node?_old hd hf (x := x)
  rw [hid] at hnew ⊢
  generalize (copy owner c d).2 = d' at *
  have hm' := hgrown.old hm
  have hr := hcopying.top
  have hlt : d.tree.lastId < f c.id := hf.lt c.id_mem_ids
  have hle : f p ≤ d.tree.lastId := hd.id_le_lastId hm
  have hpc : f p ≠ f c.id := (hle.trans_lt hlt).ne
  have hrpage : ((c.node.copied owner f).uprooted).kind.isPage = false :=
    (Kind.isPage_eq_of_same (same_copied owner c.node.toContent)).trans hpage
  rw [Tree.children_eq hm']
  have hnode := node?_attach_end hgrown.sound.toWellFormed hm' hr rfl hpc
  refine ⟨hgrown.sound.attach hm' hr rfl hrpage
    (hgrown.old.not_within hd.toWellFormed hm hnew.new), ?lastId, ?top, ?node?, ?old⟩
  case lastId =>
    rw [(rewritten_attach hgrown.sound.toWellFormed hr rfl hpc hm').lastId, hlast, Branch.ids,
      List.length_map]
  case top => rw [hnode, if_pos rfl]
  case node? =>
    intro n hn
    have hmem : n.id ∈ c.ids := List.mem_map_of_mem hn
    have hnp : f n.id ≠ f p := (hle.trans_lt (hf.lt hmem)).ne'
    rw [hnode, if_neg hnp]
    rw [Branch.nodes_eq] at hn
    rcases List.mem_cons.mp hn with rfl | hn
    · -- The new place is the one among the copies that the child has among its siblings.
      obtain ⟨k, hk, hparent, hposition⟩ := ht.child_iff.mp hget
      obtain rfl := Option.some.inj (hshows.node?.symm.trans hk)
      rw [show f c.node.id = f c.id from rfl, if_pos rfl]
      simp [Node.copied, Node.uprooted, hparent, hposition]
    · have hne : n.id ≠ c.id := Branch.ne_id_of_mem_inner (hshows.nodup_ids ht) hn
      rw [if_neg fun heq => hne (hf.injective hmem c.id_mem_ids heq), hcopying.node? n hn]
  case old =>
    intro y hy hne
    rw [hnode, if_neg hne, if_neg (hy.trans_lt hlt).ne, hold hy]

/-- The copies of children are put one after the other below the copy of their parent. -/
theorem copying_children (ht : t.WellFormed) (cs : List Branch)
    (hcs : ∀ c ∈ cs, Copies owner c ∧ c.Shows t ∧ c.node.kind.isPage = false ∧ c.InnerPlain) :
    ∀ (d : Draft) (m : Node) (before : List NodeId), d.tree.Sound →
      d.tree.node? (f p) = some m → m.children = before.map f →
      t.children p = before ++ cs.map Branch.id → (cs.flatMap Branch.ids).Nodup →
      NumbersFrom d.tree.lastId (cs.flatMap Branch.ids) f →
      Copying owner f (Branch.allNodes cs) (f p) (m.extended ((cs.map Branch.id).map f)) d
        (copy.copyChildren owner (f p) cs d) := by
  induction cs with
  | nil =>
    intro d m before _ hm _ _ _ _
    refine ⟨rfl, ?_, fun n hn => (nomatch hn), fun _ _ _ => rfl⟩
    rw [List.map_nil, List.map_nil, Node.extended_nil]
    exact hm
  | cons c cs ih =>
    intro d m before hd hm hbefore hchildren hnodup hf
    obtain ⟨hcopies, hshows, hpage, hplain⟩ := hcs c List.mem_cons_self
    rw [List.flatMap_cons] at hnodup hf
    obtain ⟨-, hrest, hdisjoint⟩ := List.nodup_append.mp hnodup
    have hget : (t.children p)[m.children.length]? = some c.id := by simp [hchildren, hbefore]
    obtain ⟨hsound, hchild⟩ := copying_child ht hcopies hshows hpage hplain hd hm hget hf.left
    have hlast := hchild.lastId
    have hcopied := ih (fun c' hc' => hcs c' (List.mem_cons_of_mem _ hc')) _
      (m.extended [f c.id]) (before ++ [c.id]) hsound hchild.top (by simp [hbefore])
      (by simp [hchildren]) hrest (by
        rw [hlast, ← List.length_map (f := Node.id)]
        exact hf.right fun x hx hx' => hdisjoint x hx x hx' rfl)
    rw [Node.extended_extended] at hcopied
    refine hchild.append hcopied fun k hk => ?_
    have hmem : k.id ∈ c.ids := List.mem_map_of_mem hk
    refine ⟨?_, ((hd.id_le_lastId hm).trans_lt (hf.left.lt hmem)).ne'⟩
    rw [hlast, ← List.length_map (f := Node.id)]
    exact hf.left.le hmem

/-- The nodes that copying a branch adds. -/
theorem copying (owner : Option String) (ht : t.WellFormed) (b : Branch) (hb : b.Shows t) :
    Copies owner b := by
  induction b with
  | mk n cs ih =>
    intro d f hd hf
    have hid := node?_nextId hd
    have hplain := ht.innerPlain hb
    have hnodup := hb.nodup_ids ht
    obtain ⟨hn, hcs, hshows⟩ := Branch.shows_mk.mp hb
    have hroot : d.nextId = f n.id := nextId_eq hf
    rw [Branch.ids_mk] at hf hnodup
    obtain ⟨hnot, hnodup⟩ := List.nodup_cons.mp hnodup
    have hcopied := copying_children (p := n.id) (f := f) ht cs
      (fun c hc => ⟨ih c hc (hshows c hc), hshows c hc, hplain.of_mem hc⟩)
      (d.addAt d.nextId (n.toContent.copied owner))
      (Node.ofContent d.nextId (n.toContent.copied owner)) [] (hd.addAt hid _)
      (by rw [← hroot, node?_addAt, if_pos rfl]) rfl ((Tree.children_eq hn).trans hcs) hnodup
      (by
        rw [lastId_addAt_nextId]
        exact hf.tail hnot)
    have hcopy : (Node.ofContent d.nextId (n.toContent.copied owner)).extended
        ((cs.map Branch.id).map f) = (n.copied owner f).uprooted := by
      rw [← hcs, hroot]
      rfl
    rw [hcopy, ← hroot] at hcopied
    exact ⟨hroot, hroot ▸ hcopied⟩

/-- The copy of a node without children. -/
theorem copying_leaf (owner : Option String) (hn : n.children = []) : Copies owner ⟨n, []⟩ := by
  intro d f _ hf
  have hroot : d.nextId = f n.id := nextId_eq hf
  have hcopy : (n.copied owner f).uprooted =
      Node.ofContent d.nextId (n.toContent.copied owner) := by
    rw [Node.copied, hn, hroot]
    rfl
  refine ⟨hroot, rfl, ?_, fun n hn => (nomatch hn), fun _ _ _ => rfl⟩
  rw [show Branch.node ⟨n, []⟩ = n from rfl, hcopy, show Branch.id ⟨n, []⟩ = n.id from rfl,
    ← hroot]
  exact (node?_addAt d _ _ _).trans (if_pos rfl)

/-! ### Copies in a document -/

theorem node?_setDocument_within (h : d.tree.WellFormed) {root : NodeId}
    (hn : d.tree.node? x = some n) (hw : d.tree.Within x root) (document : Option NodeId) :
    (d.setDocument root document).tree.node? x = some (n.inDocument document) := by
  have hmem : n.id ∈ d.tree.branchIds root := by rwa [h.keyed hn, h.mem_branchIds_iff hn]
  rw [(rewritten_setDocument h.keyed root document).node?_of_some hn, documented, Node.inDocument]
  cases n.kind.isPage <;> simp [hmem]

/-- A branch that enters one document after another is in the last one. -/
theorem tree_setDocument_setDocument (h : d.tree.WellFormed) (root : NodeId)
    (document document' : Option NodeId) :
    ((d.setDocument root document).setDocument root document').tree =
      (d.setDocument root document').tree := by
  have hg := rewritten_setDocument h.keyed root document
  have hs := still_documented d.tree (d.tree.branchIds root) document
  have h' : (d.setDocument root document).tree.WellFormed := h.of_still hg hs
  have hg' := rewritten_setDocument h'.keyed root document'
  have hg'' := rewritten_setDocument h.keyed root document'
  refine Tree.ext_node? (fun x => ?_) (hg'.rest.trans (hg.rest.trans hg''.rest.symm))
  rw [hg''.node?, hg'.node?, hg.node?, Option.map_map]
  cases hn : d.tree.node? x with
  | none => rfl
  | some n =>
    have hmem : n.id ∈ (d.setDocument root document).tree.branchIds root ↔
        n.id ∈ d.tree.branchIds root := by
      rw [h.keyed hn, h.mem_branchIds_iff hn, h'.mem_branchIds_iff (hg.node?_of_some hn),
        hg.within_eq hs]
    by_cases hin : n.id ∈ d.tree.branchIds root <;> cases hpage : n.kind.isPage <;>
      simp [documented, hmem, hin, hpage]

namespace Copies

variable (h : Copies owner b) (hplain : b.InnerPlain) (hd : d.tree.Sound)
  (hf : NumbersFrom d.tree.lastId b.ids f) (document : Option NodeId)
include h hplain hd hf

/-- The copy of a branch, and the draft that has got it. -/
theorem grown : Grown d.tree (copy owner b d).2 ∧
    NewRoot d.tree (copy owner b d).2 (f b.id) b.node.kind := by
  have hgrown := grown_copy owner b d hd hplain
  rwa [(h d f hd hf).1] at hgrown

/-- Every node of a branch has a copy in the document. -/
theorem node?_setDocument (hn : n ∈ b.nodes) (hnodup : b.ids.Nodup) :
    ((copy owner b d).2.setDocument (f b.id) document).tree.node? (f n.id) =
      some ((if n.id = b.id then (n.copied owner f).uprooted else n.copied owner f).inDocument
        document) := by
  obtain ⟨hgrown, hnew⟩ := h.grown hplain hd hf
  have hcopying := (h d f hd hf).2
  have hnode : (copy owner b d).2.tree.node? (f n.id) =
      some (if n.id = b.id then (n.copied owner f).uprooted else n.copied owner f) := by
    rw [Branch.nodes_eq] at hn
    rcases List.mem_cons.mp hn with rfl | hn
    · rw [show b.node.id = b.id from rfl, if_pos rfl]
      exact hcopying.top
    · rw [if_neg (Branch.ne_id_of_mem_inner hnodup hn), hcopying.node? n hn]
  have hfree : d.tree.node? (f n.id) = none :=
    hd.node?_none_of_lt (hf.lt (List.mem_map_of_mem hn))
  exact node?_setDocument_within hgrown.sound.toWellFormed hnode (hnew.within hnode hfree) document

/-- The nodes that were there are not concerned. -/
theorem node?_setDocument_old (hx : x ≤ d.tree.lastId) :
    ((copy owner b d).2.setDocument (f b.id) document).tree.node? x = d.tree.node? x := by
  obtain ⟨hgrown, hnew⟩ := h.grown hplain hd hf
  obtain ⟨hold, -⟩ := hgrown.setDocument hd.toWellFormed hnew document
  cases hn : d.tree.node? x with
  | some n => exact hold hn
  | none =>
    rw [(rewritten_setDocument hgrown.sound.keyed _ _).node?, h.node?_old hd hf hx, hn]
    rfl

/-- Nothing but the copies is new. -/
theorem exists_eq_of_lt (hnodup : b.ids.Nodup) (hlt : d.tree.lastId < x)
    (hn : ((copy owner b d).2.setDocument (f b.id) document).tree.node? x = some n) :
    ∃ y ∈ b.ids, f y = x := by
  obtain ⟨hgrown, -⟩ := h.grown hplain hd hf
  have hg := rewritten_setDocument hgrown.sound.keyed (f b.id) document
  obtain ⟨m, hm, -⟩ := hg.exists_of_some hn
  refine hf.exists_eq hnodup hlt ?_
  rw [← h.lastId_eq hd hf]
  exact hgrown.sound.id_le_lastId hm

/-- The copies are what stands at or below the copy of the root. -/
theorem within_iff (hnodup : b.ids.Nodup) :
    ((copy owner b d).2.setDocument (f b.id) document).tree.Within x (f b.id) ↔
      ∃ y ∈ b.ids, f y = x := by
  obtain ⟨hgrown, hnew⟩ := h.grown hplain hd hf
  obtain ⟨hold, hnew'⟩ := hgrown.setDocument hd.toWellFormed hnew document
  constructor
  · intro hw
    obtain ⟨n, hn⟩ : ∃ n,
        ((copy owner b d).2.setDocument (f b.id) document).tree.node? x = some n := by
      rcases hw.eq_or_below with rfl | hb
      · obtain ⟨n, hn, -⟩ := hnew'.exists_node
        exact ⟨n, hn⟩
      · obtain ⟨p, hp, -⟩ := hb.exists_under
        exact hp.exists_node.imp fun _ => And.left
    refine h.exists_eq_of_lt hplain hd hf document hnodup (Nat.lt_of_not_le fun hle => ?_) hn
    -- What was there before does not stand below a new node.
    rw [h.node?_setDocument_old hplain hd hf document hle] at hn
    exact hold.not_within hd.toWellFormed hn hnew.new hw
  · rintro ⟨y, hy, rfl⟩
    obtain ⟨n, hn, rfl⟩ := List.mem_map.mp hy
    exact hnew'.within (h.node?_setDocument hplain hd hf document hn hnodup)
      (hd.node?_none_of_lt (hf.lt hy))

end Copies

end Draft

end ContentTree
