import ContentTree.Proofs.Draft.Inward
import ContentTree.Proofs.Merge.Leads
import ContentTree.Proofs.Merge.Plan

/-!
# Merges change nothing outside

The operations of a plan name existing nodes by identifiers and by keys. Keys belong to one node of
the target each, so that the root of the existing branch is found under its own key only, and no
operation that moves or deletes a node has this key. All other nodes that a plan names are below the
root, and nodes that are created on the way are new. A merge therefore makes changes inside the set
of these nodes only, wherever they have come to stand in the meantime.

## Main definitions

* `KeyIndex.Inward`, `Operation.Inward`, `Plan.Inward`: an index, an operation and a plan name nodes
  of a set only, and the root where it stays in its place.

## Main results

* `Plan.inward_ofBranches`: a plan names the nodes below the root only.
* `Apply.inward_plan`: carrying out such a plan.
-/

namespace ContentTree

open ContentTree.Draft (Inward)
open ContentTree.Edit (Leads)

variable {inside : NodeId → Prop} {root : NodeId} {e : Editor} {d d' : Draft} {c p id : NodeId}
  {reference : Option NodeId}

namespace Edit

/-! ### Operations inside a set -/

section Insert

variable (hb : d.tree.Bounds inside root) (hc : inside c) (hp : inside p ∨ p = root)
include hb hc hp

/-- With a fragment, what stands in it is in the set. -/
theorem inward_insert (reference : Option NodeId) :
    Leads (Inward inside root e.principal.name?) e d (insert p c reference) := by
  refine leads_insert fun x hx d' h ha => ?_
  have hinside : inside x := by
    rcases hx with rfl | hx
    · exact hc
    · exact (hb.inside_iff (hb.sound.mem_children_iff.mp hx)).mpr (.inl hc)
  have hb' := h.bounds hb
  have hm := Draft.movable_of_admits hb'.sound.toWellFormed ha
  exact Draft.inward_place hb' hm hinside hp reference

theorem inward_insertBefore (reference : Option NodeId) :
    Leads (Inward inside root e.principal.name?) e d (insertBefore p c reference) :=
  .bind (inward_insert hb hc hp reference) fun _ _ _ _ => .pure c

end Insert

theorem inward_create (hb : d.tree.Bounds inside root) (document : Option NodeId)
    (content : Content) :
    Leads (Inward inside root e.principal.name?) e d (create document content) := by
  refine leads_create rfl (fun _ => Draft.inward_add hb rfl) fun _ _ => ?_
  set owned : Content :=
    { content with properties := { content.properties with owner := e.principal.name? } }
  have hadd : Inward inside root e.principal.name? d (d.add owned).2 := Draft.inward_add hb rfl
  have hnew : inside d.nextId := hb.inside_of_none (Draft.node?_nextId hb.sound)
  exact trans_of (Inward inside root e.principal.name?) hadd
    (Draft.inward_setDocument (hadd.bounds hb) hnew document)

/-- Created nodes have the next identifier. -/
theorem eq_nextId_of_run_create {document : Option NodeId} {content : Content}
    (hrun : (create document content).run e d = (.ok id, d')) : id = d.nextId := by
  unfold create at hrun
  cases document with
  | none =>
    obtain ⟨hid, -⟩ := Prod.mk.inj hrun
    exact (Except.ok.inj hid).symm
  | some page =>
    dsimp only at hrun
    split at hrun
    · obtain ⟨_, d₁, hcheck, hrun⟩ := run_bind_eq_ok.mp hrun
      obtain ⟨-, rfl⟩ := run_check_eq_ok.mp hcheck
      obtain ⟨hid, -⟩ := Prod.mk.inj hrun
      exact (Except.ok.inj hid).symm
    · obtain ⟨hid, -⟩ := Prod.mk.inj hrun
      exact (Except.ok.inj hid).symm

theorem inward_trash (hb : d.tree.Bounds inside root) (hid : inside id) :
    Leads (Inward inside root e.principal.name?) e d (trash id) :=
  .check_bind fun _ _ => .write (Draft.inward_discard hb hid)

/-- An update that leaves owner and grants alone. -/
theorem inward_update {content : Content} {n : Node} (hb : d.tree.Bounds inside root)
    (hn : d.tree.node? id = some n) (hid : inside id ∨ id = root)
    (howner : content.properties.owner = n.properties.owner)
    (hgrants : content.properties.grants = n.properties.grants) :
    Leads (Inward inside root e.principal.name?) e d (update id content) := by
  refine .check_bind fun _ h => .write ?_
  simp only [bind_eq_ok, Tree.require_eq_ok, ite_throw_eq_ok] at h
  obtain ⟨-, -, m, hm, hkind⟩ := h
  obtain rfl := Option.some.inj (hn.symm.trans hm)
  exact Draft.inward_setContent hb hn hid (by simpa using hkind) howner hgrants

end Edit

namespace Merge

/-! ### Plans that name nodes of a set only -/

variable {rootKey : BranchKey} {index : KeyIndex} {settings : Settings}

/-- An index finds nodes of a set only, and the root under its own key. -/
def KeyIndex.Inward (inside : NodeId → Prop) (root : NodeId) (rootKey : BranchKey)
    (index : KeyIndex) : Prop :=
  ∀ key x, index[key]? = some x → inside x ∨ key = rootKey ∧ x = root

/-- An operation names nodes of a set only, or else the root, which does not leave its place. -/
def Operation.Inward (inside : NodeId → Prop) (root : NodeId) (rootKey : BranchKey) :
    Operation → Prop
  | delete id => inside id
  | create _ key _ => key ≠ rootKey
  | move _ key id => key ≠ rootKey ∧ ∀ x, id = some x → inside x
  | update _ id _ => inside id ∨ id = root

/-- A plan names nodes of a set only, or else the root, which does not leave its place. -/
structure Plan.Inward (inside : NodeId → Prop) (root : NodeId) (rootKey : BranchKey) (p : Plan) :
    Prop where
  index : p.index.Inward inside root rootKey
  operations : ∀ o ∈ p.operations, o.Inward inside root rootKey

theorem KeyIndex.Inward.insert {key : BranchKey} (h : index.Inward inside root rootKey)
    (hid : inside id) : KeyIndex.Inward inside root rootKey (index.insert key id) := by
  intro k x hx
  rw [Std.ExtTreeMap.getElem?_insert] at hx
  split at hx
  · exact .inl (Option.some.inj hx ▸ hid)
  · exact h k x hx

theorem KeyIndex.Inward.inside_of_ne {key : BranchKey} (h : index.Inward inside root rootKey)
    (hkey : key ≠ rootKey) (hid : index[key]? = some id) : inside id :=
  (h key id hid).resolve_right fun ⟨hroot, _⟩ => hkey hroot

/-- Parents are looked up in the index. -/
theorem KeyIndex.Inward.parent {t : Tree} {destination : Destination} {position : Position}
    (h : index.Inward inside root rootKey) (hp : destination.find? t index = some position) :
    inside position.parent ∨ position.parent = root := by
  obtain ⟨x, hx, hp⟩ := Option.bind_eq_some_iff.mp hp
  split at hp
  · rw [← Option.some.inj hp]
    exact (h _ x hx).imp_right And.right
  · exact nomatch hp

/-! ### What a plan names -/

namespace Pairing.Covers

variable {t : Tree} {claimed : Claimed} {p q r : Pairing} {x : NodeId}

/-- Every partner but that of the root stands below the root. -/
theorem below_of_mem_entries (h : Covers t root claimed p) {key : BranchKey} (hr : r ∈ p.children)
    (hx : (key, some x) ∈ r.entries) : t.Below x root := by
  obtain ⟨q, hq, hxq⟩ := exists_own_of_mem_entries hx
  have hqp : q ∈ p.items := mem_items.mpr (.inr ⟨r, hr, hq⟩)
  rcases eq_or_exists_parent hqp with rfl | ⟨s, hs, hqs⟩
  · exact absurd hq (not_mem_items_of_child hr)
  · exact h.below s hs q hqs x hxq

/-- The root has its own key, and every other partner stands below it. -/
theorem mem_entries_cases (h : Covers t root claimed p) {key : BranchKey}
    (hx : (key, some x) ∈ p.entries) : t.Below x root ∨ key = p.key ∧ x = root := by
  obtain ⟨hsame, hroot⟩ := h.root_alike
  cases p with
  | same u b => exact nomatch hsame
  | alike k c b ps =>
    rcases List.mem_cons.mp hx with heq | hx
    · obtain ⟨rfl, hxb⟩ := Prod.mk.inj heq
      exact .inr ⟨rfl, Option.some.inj (hxb.trans hroot)⟩
    · obtain ⟨r, hr, hx⟩ := mem_listEntries.mp hx
      exact .inl (h.below_of_mem_entries hr hx)
  | fresh k c ps => exact nomatch hroot

end Pairing.Covers

namespace Plan

open Pairing (Covers)

variable {t : Tree} {claimed : Pairing.Claimed} {q : Pairing} {p : Pairing} {b : Branch}

theorem inward_ofPairing (ht : t.WellFormed) (hb : b.Shows t)
    (hcovers : Covers t b.id claimed p) (hkeys : (p.entries.map Prod.fst).Nodup)
    (hinside : ∀ x, t.Below x b.id → inside x) :
    (ofPairing b p claimed).Inward inside b.id p.key where
  index key x hx := by
    have hpartners := hkeys.sublist (sublist_partners p)
    rcases (getElem?_foldl_insert hpartners ∅).mp hx with hx | ⟨-, hx⟩
    · exact (hcovers.mem_entries_cases (mem_partners_iff.mp hx)).imp_left (hinside x)
    · simp at hx
  operations o ho := by
    have hitems := Pairing.nodup_keys hkeys
    simp only [ofPairing, List.mem_append] at ho
    rcases ho with ((ho | ho) | ho) | ho
    · obtain ⟨x, hx, rfl⟩ := List.mem_map.mp ho
      exact hinside x (below_of_mem_unpaired ht hb (List.mem_mergeSort.mp hx)).2
    · obtain ⟨q, hq, rs, c, ps, hchildren, -, rfl⟩ := exists_of_mem_creates ho
      have hc : c ∈ q.children := hchildren ▸ List.mem_append_right _ List.mem_cons_self
      exact Pairing.key_ne_of_child hitems hq hc
    · obtain ⟨q, hq, rs, c, ps, hchildren, rfl⟩ := exists_of_mem_moves ho
      have hc : c ∈ q.children := hchildren ▸ List.mem_append_right _ List.mem_cons_self
      refine ⟨Pairing.key_ne_of_child hitems hq hc, fun x hx => hinside x ?_⟩
      exact hcovers.below q hq c hc x (Pairing.mem_own_of_partner? hx)
    · obtain ⟨k, c, a, ps, hq, rfl⟩ := exists_of_mem_updates ho
      rcases (hcovers.shows _ hq a rfl).2.eq_or_below with heq | hbelow
      · exact .inr heq
      · exact .inl (hinside _ hbelow)

/-- A plan names nodes below the root of the existing branch only, whatever the target is. -/
theorem inward_ofBranches (ht : t.WellFormed) (hb : b.Shows t) (target : Branch)
    (hinside : ∀ x, t.Below x b.id → inside x) :
    (ofBranches b target).Inward inside b.id (Target.ofBranch target).key :=
  inward_ofPairing ht hb (Pairing.covers_ofTarget ht hb _)
    ((Pairing.paired_ofTarget b _).follows_root.nodup_entries (Target.nodup_labels target)) hinside

end Plan

namespace Apply

/-! ### Carrying out such a plan -/

variable (hb : d.tree.Bounds inside root) {position : Position}
  (hp : inside position.parent ∨ position.parent = root)
include hb hp

theorem inward_move (hid : inside id) :
    Leads (Inward inside root e.principal.name?) e d (move settings position id) :=
  leads_move fun _ _ h reference => Edit.inward_insert (h.bounds hb) hid hp reference

theorem inward_create (content : Content) :
    Leads (Inward inside root e.principal.name?) e d (create position content) := by
  refine .tree_bind (.bind (Edit.inward_create hb _ content) fun id d' hrun h => .tree_bind ?_)
  obtain rfl := Edit.eq_nextId_of_run_create hrun
  have hnew : inside d.nextId := hb.inside_of_none (Draft.node?_nextId hb.sound)
  exact Edit.inward_insertBefore (h.bounds hb) hnew hp _

omit hp in
theorem inside_of_run_create {content : Content}
    (hrun : (create position content).run e d = (.ok id, d')) : inside id := by
  obtain ⟨t, d₁, htree, hrun⟩ := Edit.run_bind_eq_ok.mp hrun
  obtain ⟨-, rfl⟩ := Prod.mk.inj htree
  obtain ⟨x, d₂, hcreate, hrun⟩ := Edit.run_bind_eq_ok.mp hrun
  obtain ⟨t, d₃, -, hrun⟩ := Edit.run_bind_eq_ok.mp hrun
  obtain ⟨_, d₄, -, hrun⟩ := Edit.run_bind_eq_ok.mp hrun
  obtain rfl := Except.ok.inj (Prod.mk.inj hrun).1
  rw [Edit.eq_nextId_of_run_create hcreate]
  exact hb.inside_of_none (Draft.node?_nextId hb.sound)

omit hp
variable (hindex : index.Inward inside root rootKey)
include hindex

theorem inward_operation {o : Operation} (ho : o.Inward inside root rootKey) :
    Leads (Inward inside root e.principal.name?) e d (operation settings index o) := by
  refine leads_operation ?delete ?create ?move ?update
  case delete =>
    rintro id rfl
    exact Edit.inward_trash hb ho
  case create =>
    rintro _ _ content position rfl hposition -
    exact inward_create hb (hindex.parent hposition) content
  case move =>
    rintro _ key id position x rfl hposition hx
    obtain ⟨hkey, hid⟩ := ho
    -- The node is named, or else it is found under a key that is not the key of the root.
    have hinside : inside x := by
      rcases Option.or_eq_some_iff.mp hx with hx | ⟨-, hx⟩
      · exact hid x hx
      · exact hindex.inside_of_ne hkey hx
    exact inward_move hb (hindex.parent hposition) hinside
  case update =>
    rintro _ id content n rfl hn
    exact Edit.inward_update hb hn ho rfl rfl

/-- The index grows by new nodes only. -/
theorem inward_of_run_operation {o : Operation} {r : Outcome × KeyIndex}
    (hrun : (operation settings index o).run e d = (.ok r, d')) :
    r.2.Inward inside root rootKey := by
  have hsame : ∀ {outcome : Outcome} {d₁ d₂ : Draft},
      (pure (outcome, index) : Edit (Outcome × KeyIndex)).run e d₁ = (.ok r, d₂) →
        r.2.Inward inside root rootKey := by
    intro outcome d₁ d₂ h
    obtain rfl := Except.ok.inj (Prod.mk.inj h).1
    exact hindex
  cases o with
  | delete id =>
    obtain ⟨t, d₁, -, hrun⟩ := Edit.run_bind_eq_ok.mp hrun
    split at hrun
    · exact hsame hrun
    · split at hrun
      · exact hsame hrun
      · obtain ⟨_, d₂, -, hrun⟩ := Edit.run_bind_eq_ok.mp hrun
        exact hsame hrun
  | create destination key content =>
    obtain ⟨t, d₁, htree, hrun⟩ := Edit.run_bind_eq_ok.mp hrun
    obtain ⟨-, rfl⟩ := Prod.mk.inj htree
    split at hrun
    · exact hsame hrun
    · split at hrun
      · exact hsame hrun
      · obtain ⟨x, d₂, hcreate, hrun⟩ := Edit.run_bind_eq_ok.mp hrun
        obtain rfl := Except.ok.inj (Prod.mk.inj hrun).1
        exact hindex.insert (inside_of_run_create hb hcreate)
  | move destination key id =>
    obtain ⟨t, d₁, -, hrun⟩ := Edit.run_bind_eq_ok.mp hrun
    split at hrun
    · exact hsame hrun
    · split at hrun
      · exact hsame hrun
      · obtain ⟨_, d₂, -, hrun⟩ := Edit.run_bind_eq_ok.mp hrun
        exact hsame hrun
  | update key id content =>
    obtain ⟨t, d₁, -, hrun⟩ := Edit.run_bind_eq_ok.mp hrun
    split at hrun
    · exact hsame hrun
    · split at hrun
      · exact hsame hrun
      · obtain ⟨_, d₂, -, hrun⟩ := Edit.run_bind_eq_ok.mp hrun
        exact hsame hrun

omit hb hindex
theorem inward_operations {os : List Operation} (hb : d.tree.Bounds inside root)
    (hindex : index.Inward inside root rootKey) (hos : ∀ o ∈ os, o.Inward inside root rootKey) :
    Leads (Inward inside root e.principal.name?) e d (operations settings index os) := by
  refine leads_operations (P := fun index d =>
    d.tree.Bounds inside root ∧ index.Inward inside root rootKey) os ?_ ?_ index d ⟨hb, hindex⟩
  · rintro o ho index d ⟨hb, hindex⟩
    exact inward_operation hb hindex (hos o ho)
  · rintro o ho index d r d' ⟨hb, hindex⟩ hrun h
    exact ⟨h.bounds hb, inward_of_run_operation hb hindex hrun⟩

/-- Carrying out a plan that names nodes of a set only makes changes inside the set. -/
theorem inward_plan {p : Plan} (hb : d.tree.Bounds inside root)
    (h : p.Inward inside root rootKey) :
    Leads (Inward inside root e.principal.name?) e d (plan settings p) := by
  refine .bind (inward_operations hb h.index fun o ho => ?_) fun _ _ _ _ => .pure _
  rw [Operation.sort, List.mem_mergeSort] at ho
  exact h.operations o ho

end Apply

end Merge

end ContentTree
