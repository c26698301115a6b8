import ContentTree.Directive.Basic
import ContentTree.Proofs.Draft.Documents
import ContentTree.Proofs.Tree.Sever
import ContentTree.View.Context

/-!
# Hidden nodes

Below the root of a page, a node that is not to be kept hides itself and everything below it. The
hidden nodes can be cut out: their links to other nodes are cut, and then nothing is left of them on
the page. They can be removed from the tree altogether, too, unless other nodes claim to belong to
one of them, which is no page.

## Main definitions

* `Tree.isHidden`: nodes that are not to be kept, or are below such a node.
* `Tree.cutHidden`, `Tree.dropHidden`: a tree with the hidden nodes cut out, and without them.
* `Tree.Reveals`: a tree shows what is not hidden in another.

## Main results

* `WellFormed.isHidden_iff`: what hides a node stands between it and the root.
* `WellFormed.reveals_cutHidden`, `WellFormed.reveals_dropHidden`: both trees show what is not
  hidden.
-/

namespace ContentTree

open Relation

/-- Two records of a node that differ in its place at most. -/
structure Node.Alike (n n' : Node) : Prop where
  id : n'.id = n.id
  content : n'.toContent = n.toContent

namespace Node.Alike

variable {n n' : Node} (h : n.Alike n')
include h

theorem kind : n'.kind = n.kind := congrArg Content.kind h.content

theorem properties : n'.properties = n.properties := congrArg Content.properties h.content

theorem link : n'.link = n.link := congrArg Content.link h.content

/-- Expressions do not see the place of a node. -/
theorem value : n'.value = n.value := by
  simp only [Node.value, Node.hashOrId, Node.contextName, h.kind, h.properties, h.id]

end Node.Alike

namespace Tree

variable {t : Tree} {keep : Node → Bool} {root x c p : NodeId} {n : Node}

/-! ### Hidden nodes -/

/-- Whether a node stands at or below a node of the branch of `root` that is not to be kept. -/
def isHidden (t : Tree) (keep : Node → Bool) (root x : NodeId) : Bool :=
  (x :: t.ancestors x).any fun z =>
    (z :: t.ancestors z).contains root && (t.node? z).any fun n => !keep n

theorem WellFormed.mem_way_iff (h : t.WellFormed) : p ∈ c :: t.ancestors c ↔ t.Within c p := by
  rw [List.mem_cons, h.mem_ancestors_iff, Within, reflTransGen_iff_eq_or_transGen]
  rfl

theorem WellFormed.isHidden_iff (h : t.WellFormed) : t.isHidden keep root x = true ↔
    ∃ z n, t.Within x z ∧ t.Within z root ∧ t.node? z = some n ∧ keep n = false := by
  simp only [isHidden, List.any_eq_true, h.mem_way_iff, Bool.and_eq_true, List.contains_iff_mem,
    Option.any_eq_true, Bool.not_eq_true']
  tauto

/-- A child is hidden if its parent is, and otherwise if it is not to be kept itself. -/
theorem WellFormed.isHidden_child (h : t.WellFormed) (hc : t.Under c p) (hp : t.Within p root)
    (hn : t.node? c = some n) :
    t.isHidden keep root c = (t.isHidden keep root p || !keep n) := by
  rw [Bool.eq_iff_iff, Bool.or_eq_true, h.isHidden_iff, h.isHidden_iff, Bool.not_eq_true']
  constructor
  · -- What hides the child is the child itself, or stands at or above its parent.
    rintro ⟨z, m, hcz, hz, hm, hkeep⟩
    rcases hcz.eq_or_below with rfl | hb
    · obtain rfl := Option.some.inj (hn.symm.trans hm)
      exact .inr hkeep
    · exact .inl ⟨z, m, hb.of_under hc, hz, hm, hkeep⟩
  · rintro (⟨z, m, hpz, hz, hm, hkeep⟩ | hkeep)
    · exact ⟨z, m, .head hc hpz, hz, hm, hkeep⟩
    · exact ⟨c, n, .refl, .head hc hp, hn, hkeep⟩

/-- The root is hidden only where it is not to be kept itself. -/
theorem WellFormed.isHidden_root (h : t.WellFormed) (hn : t.node? root = some n) :
    t.isHidden keep root root = !keep n := by
  rw [Bool.eq_iff_iff, h.isHidden_iff, Bool.not_eq_true']
  constructor
  · rintro ⟨z, m, hrz, hzr, hm, hkeep⟩
    rcases hrz.eq_or_below with rfl | hb
    · exact Option.some.inj (hn.symm.trans hm) ▸ hkeep
    · exact absurd (TransGen.trans_left hb hzr) (h.acyclic root)
  · exact fun hkeep => ⟨root, n, .refl, .refl, hn, hkeep⟩

/-- A page other than the root is never hidden, since it has no parent. -/
theorem WellFormed.isHidden_page (h : t.WellFormed) (hx : t.node? x = some n)
    (hpage : n.kind.isPage = true) (hidden : t.isHidden keep root x = true) : x = root := by
  obtain ⟨z, -, hxz, hzr, -⟩ := h.isHidden_iff.mp hidden
  exact Within.eq_of_root (hxz.trans hzr) ((parent?_eq hx).trans (h.page_root hx hpage))

/-! ### Trees that reveal the same -/

/-- A tree has every node that is not hidden in the branch of `root` of another tree, with those of
its children that are not hidden and on a page with the same audience. -/
structure Reveals (keep : Node → Bool) (root : NodeId) (t t' : Tree) : Prop where
  alike : ∀ {x n}, t.Within x root → t.isHidden keep root x = false → t.node? x = some n →
    ∃ n', t'.node? x = some n' ∧ n.Alike n'
  children : ∀ {x}, t.isHidden keep root x = false →
    t'.children x = (t.children x).filter fun c => !t.isHidden keep root c
  pageAudience : ∀ {x}, t.isHidden keep root x = false → t'.pageAudience x = t.pageAudience x

theorem Reveals.directives {t' : Tree} (hr : t.Reveals keep root t') (hx : t.Within x root)
    (hshown : t.isHidden keep root x = false) (hn : t.node? x = some n) :
    t'.directives x = t.directives x := by
  obtain ⟨n', hn', halike⟩ := hr.alike hx hshown hn
  simp only [Tree.directives, hn, hn', hr.pageAudience hshown, Directive.ofNode, Directive.ofText,
    halike.kind, halike.properties, halike.link]

/-- The tree with the links between hidden nodes and others cut. -/
def cutHidden (t : Tree) (keep : Node → Bool) (root : NodeId) : Tree :=
  t.sever (t.isHidden keep root)

/-- The tree with the hidden nodes removed. -/
def dropHidden (t : Tree) (keep : Node → Bool) (root : NodeId) : Tree :=
  (t.cutHidden keep root).drop (t.isHidden keep root)

theorem WellFormed.reveals_cutHidden (h : t.WellFormed) :
    t.Reveals keep root (t.cutHidden keep root) where
  alike _ _ hn := ⟨_, (rewritten_sever t _).node?_of_some hn, rfl, rfl⟩
  children hshown := by
    rw [cutHidden, h.children_sever, hshown]
    simp
  pageAudience {x} _ := by
    have hdocument : (t.cutHidden keep root).document? x = t.document? x :=
      (rewritten_sever t _).document? (fun _ => rfl) x
    rw [Tree.pageAudience, Tree.pageAudience, hdocument]
    cases t.document? x with
    | none => rfl
    | some d =>
      rw [Option.bind_some, Option.bind_some, cutHidden, (rewritten_sever t _).node?]
      cases t.node? d <;> rfl

/-- Where documents are pages, the removed nodes are not missed. -/
theorem WellFormed.reveals_dropHidden (h : t.WellFormed) (hpages : t.RecordsPages)
    (hroot : t.isHidden keep root root = false) :
    t.Reveals keep root (t.dropHidden keep root) where
  alike hx hshown hn := by
    obtain ⟨n', hn', halike⟩ := h.reveals_cutHidden.alike hx hshown hn
    exact ⟨n', node?_drop_eq_some.mpr ⟨hn', hshown⟩, halike⟩
  children {x} hshown := by
    rw [← h.reveals_cutHidden.children hshown, dropHidden, Tree.children, node?_drop, hshown]
    rfl
  pageAudience {x} hshown := by
    rw [← h.reveals_cutHidden.pageAudience hshown]
    have hdocument :
        (t.dropHidden keep root).document? x = (t.cutHidden keep root).document? x := by
      rw [Tree.document?, dropHidden, node?_drop, hshown]
      rfl
    rw [Tree.pageAudience, Tree.pageAudience, hdocument]
    cases hd : (t.cutHidden keep root).document? x with
    | none => rfl
    | some d =>
      -- The document is a page, and no page but the root can be hidden.
      have hx : t.document? x = some d :=
        hd ▸ ((rewritten_sever t _).document? (fun _ => rfl) x).symm
      obtain ⟨page, hpage, hk⟩ := hpages.exists_page h hx
      have hshown : t.isHidden keep root d = false := by
        by_contra hne
        have hne := Bool.eq_true_of_not_eq_false hne
        obtain rfl := h.isHidden_page hpage hk hne
        exact Bool.false_ne_true (hroot.symm.trans hne)
      rw [Option.bind_some, Option.bind_some, dropHidden, node?_drop, hshown]
      rfl

theorem WellFormed.cutHidden (h : t.WellFormed) : (t.cutHidden keep root).WellFormed :=
  h.sever _

theorem WellFormed.dropHidden (h : t.WellFormed) : (t.dropHidden keep root).WellFormed :=
  h.cutHidden.drop fun hc => (h.under_sever_iff.mp hc).2

end Tree

end ContentTree
