import ContentTree.Merge.Pairing
import ContentTree.Proofs.Merge.Target

/-!
# What a pairing says

A pairing follows the target: it has the nodes of the target, in their order, down to the branches
that exist already as a whole. Its keys are different, since the labels of the target are.

## Main definitions

* `Pairing.items`, `Pairing.own`: the nodes of a pairing, and the existing nodes that each of them
  claims.
* `Pairing.entries`: all keys of a pairing, with the partners where there are any.
* `Pairing.Follows`: a pairing follows a target.

## Main results

* `Pairing.Follows.nodup_entries`: the keys of a pairing are different.
-/

namespace ContentTree.Merge

namespace Pairing

variable {p q r : Pairing} {ps qs : List Pairing} {t : Target} {ts : List Target} {b : Branch}
  {k : BranchKey} {l : Label} {c : Content} {x : NodeId}

/-! ### The nodes of a pairing -/

/-- The children of a node. Where the whole branch exists already, nobody looks below it. -/
def children : Pairing → List Pairing
  | same .. => []
  | alike _ _ _ ps => ps
  | fresh _ _ ps => ps

/-- Induction over a pairing, given the children. -/
@[elab_as_elim, induction_eliminator]
theorem inductionOn {motive : Pairing → Prop} (p : Pairing)
    (node : ∀ p : Pairing, (∀ q ∈ p.children, motive q) → motive p) : motive p := by
  refine @Pairing.rec motive (fun ps => ∀ p ∈ ps, motive p) ?_ ?_ ?_ ?_ ?_ p
  · exact fun t b => node _ (by simp [children])
  · exact fun key c b ps ih => node _ ih
  · exact fun key c ps ih => node _ ih
  · simp
  · intro p ps hp hps
    simpa using ⟨hp, hps⟩

/-- The content a node is to have. -/
def content : Pairing → Content
  | same t _ => t.content
  | alike _ c _ _ => c
  | fresh _ c _ => c

/-- Whether a whole branch exists already. -/
def isSame : Pairing → Bool
  | same .. => true
  | _ => false

theorem isSame_eq_false_of_child (hq : q ∈ p.children) : p.isSame = false := by
  cases p with
  | same t b => exact nomatch hq
  | alike k c b ps => rfl
  | fresh k c ps => rfl

/-- Whether a node has no partner. -/
def isFresh : Pairing → Bool
  | fresh .. => true
  | _ => false

/-- The branch of the partner. -/
def existing? : Pairing → Option Branch
  | same _ b => some b
  | alike _ _ b _ => some b
  | fresh .. => none

/-- The existing nodes that a node of a pairing claims. -/
def own : Pairing → List NodeId
  | same _ b => b.ids
  | alike _ _ b _ => [b.id]
  | fresh .. => []

theorem partner?_eq (p : Pairing) : p.partner? = p.existing?.map Branch.id := by
  cases p <;> rfl

theorem partner?_eq_none_iff : p.partner? = none ↔ p.isFresh = true := by
  cases p <;> simp [partner?, isFresh]

theorem mem_own_of_partner? (hx : p.partner? = some x) : x ∈ p.own := by
  cases p with
  | same t b => exact Option.some.inj hx ▸ List.mem_map_of_mem b.node_mem_nodes
  | alike k c b ps => exact Option.some.inj hx ▸ List.mem_singleton_self _
  | fresh k c ps => exact nomatch hx

/-- The nodes of a pairing in document order. -/
def items : Pairing → List Pairing
  | same t b => [same t b]
  | alike k c b ps => alike k c b ps :: listItems ps
  | fresh k c ps => fresh k c ps :: listItems ps
where
  listItems : List Pairing → List Pairing
    | [] => []
    | p :: ps => items p ++ listItems ps

/-- The nodes of several pairings in document order. -/
abbrev allItems (ps : List Pairing) : List Pairing := items.listItems ps

theorem items_eq (p : Pairing) : p.items = p :: allItems p.children := by
  cases p <;> rfl

theorem allItems_cons (p : Pairing) (ps : List Pairing) :
    allItems (p :: ps) = p.items ++ allItems ps := rfl

theorem allItems_singleton (p : Pairing) : allItems [p] = p.items :=
  List.append_nil p.items

theorem allItems_append (ps qs : List Pairing) :
    allItems (ps ++ qs) = allItems ps ++ allItems qs := by
  induction ps with
  | nil => rfl
  | cons p ps ih => rw [List.cons_append, allItems_cons, allItems_cons, ih, List.append_assoc]

theorem mem_allItems : q ∈ allItems ps ↔ ∃ p ∈ ps, q ∈ p.items := by
  induction ps with
  | nil => simp [allItems, items.listItems]
  | cons p ps ih =>
    rw [allItems_cons, List.mem_append, ih]
    simp

theorem mem_items : q ∈ p.items ↔ q = p ∨ ∃ r ∈ p.children, q ∈ r.items := by
  rw [items_eq, List.mem_cons, mem_allItems]

theorem mem_items_self (p : Pairing) : p ∈ p.items := mem_items.mpr (.inl rfl)

theorem mem_items_trans (hr : r ∈ q.items) (hq : q ∈ p.items) : r ∈ p.items := by
  induction p with
  | node p ih =>
    rcases mem_items.mp hq with rfl | ⟨s, hs, hq⟩
    · exact hr
    · exact mem_items.mpr (.inr ⟨s, hs, ih s hs hq⟩)

theorem mem_items_of_mem_children (hr : r ∈ q.children) (hq : q ∈ p.items) : r ∈ p.items :=
  mem_items_trans (mem_items.mpr (.inr ⟨r, hr, r.mem_items_self⟩)) hq

theorem sublist_allItems (hq : q ∈ ps) : q.items.Sublist (allItems ps) := by
  induction ps with
  | nil => exact nomatch hq
  | cons p ps ih =>
    rw [allItems_cons]
    rcases List.mem_cons.mp hq with rfl | hq
    · exact List.sublist_append_left _ _
    · exact (ih hq).trans (List.sublist_append_right _ _)

theorem sublist_items (hq : q ∈ p.items) : q.items.Sublist p.items := by
  induction p with
  | node p ih =>
    rcases mem_items.mp hq with rfl | ⟨r, hr, hq⟩
    · exact .refl _
    · rw [items_eq p]
      exact ((ih r hr hq).trans (sublist_allItems hr)).cons _

/-- Every node but the root is the child of another. -/
theorem eq_or_exists_parent (hq : q ∈ p.items) : q = p ∨ ∃ r ∈ p.items, q ∈ r.children := by
  induction p with
  | node p ih =>
    rcases mem_items.mp hq with rfl | ⟨r, hr, hq⟩
    · exact .inl rfl
    · rcases ih r hr hq with rfl | ⟨s, hs, hqs⟩
      · exact .inr ⟨p, p.mem_items_self, hr⟩
      · exact .inr ⟨s, mem_items.mpr (.inr ⟨r, hr, hs⟩), hqs⟩

/-- Nobody stands below itself in a pairing. -/
theorem not_mem_items_of_child (hq : q ∈ p.children) : p ∉ q.items := by
  induction p generalizing q with
  | node p ih =>
    intro hp
    rcases mem_items.mp hp with rfl | ⟨r, hr, hp⟩
    · exact ih p hq hq p.mem_items_self
    · exact ih q hq hr (mem_items_of_mem_children hq hp)

/-- The nodes of a pairing, from the root downwards. -/
theorem items_induction {motive : Pairing → Prop} (root : motive p)
    (child : ∀ q ∈ p.items, motive q → ∀ r ∈ q.children, motive r) : ∀ q ∈ p.items, motive q := by
  induction p with
  | node p ih =>
    intro q hq
    rcases mem_items.mp hq with rfl | ⟨r, hr, hq⟩
    · exact root
    · refine ih r hr (child p p.mem_items_self root r hr) (fun s hs => ?_) q hq
      exact child s (mem_items.mpr (.inr ⟨r, hr, hs⟩))

theorem perm_flatMap_children (p : Pairing) :
    (p.items.flatMap children).Perm (allItems p.children) := by
  induction p with
  | node p ih =>
    have hlist : ∀ ps : List Pairing,
        (∀ q ∈ ps, (q.items.flatMap children).Perm (allItems q.children)) →
        (ps ++ (allItems ps).flatMap children).Perm (allItems ps) := by
      intro ps
      induction ps with
      | nil => exact fun _ => .refl _
      | cons q ps ihps =>
        intro hps
        have hq := hps q List.mem_cons_self
        have hrest := ihps fun r hr => hps r (List.mem_cons_of_mem _ hr)
        rw [allItems_cons, List.flatMap_append, items_eq q, List.cons_append, List.cons_append]
        refine .cons q ?_
        rw [← items_eq q, ← List.append_assoc]
        refine (List.perm_append_comm.append_right _).trans ?_
        rw [List.append_assoc]
        exact hq.append hrest
    rw [items_eq, List.flatMap_cons]
    exact hlist p.children ih

/-- What is gathered at every node, the root first, is gathered along the list of all nodes. -/
theorem eq_flatMap_items {α : Type} {f g : Pairing → List α}
    (hf : ∀ p, f p = g p ++ p.children.flatMap f) (p : Pairing) : f p = p.items.flatMap g := by
  induction p with
  | node p ih =>
    have hlist : ∀ ps : List Pairing, (∀ q ∈ ps, f q = q.items.flatMap g) →
        ps.flatMap f = (allItems ps).flatMap g := by
      intro ps
      induction ps with
      | nil => exact fun _ => rfl
      | cons q ps ihps =>
        intro hps
        rw [List.flatMap_cons, allItems_cons, List.flatMap_append, hps q List.mem_cons_self,
          ihps fun r hr => hps r (List.mem_cons_of_mem _ hr)]
    rw [hf, items_eq, List.flatMap_cons, hlist p.children ih]

/-! ### Keys -/

/-- All keys of a pairing, with the partners where there are any, in document order. -/
def entries : Pairing → List (BranchKey × Option NodeId)
  | same t b => (keysOfSame t b).map fun e => (e.1, some e.2)
  | alike k _ b ps => (k, some b.id) :: listEntries ps
  | fresh k _ ps => (k, none) :: listEntries ps
where
  listEntries : List Pairing → List (BranchKey × Option NodeId)
    | [] => []
    | p :: ps => entries p ++ listEntries ps

theorem partners_eq (p : Pairing) :
    p.partners = p.entries.filterMap fun e => e.2.map (Prod.mk e.1) := by
  induction p with
  | node p ih =>
    have hlist : ∀ ps : List Pairing,
        (∀ q ∈ ps, q.partners = q.entries.filterMap fun e => e.2.map (Prod.mk e.1)) →
        partners.partnersOfAll ps =
          (entries.listEntries ps).filterMap fun e => e.2.map (Prod.mk e.1) := by
      intro ps
      induction ps with
      | nil => exact fun _ => rfl
      | cons q ps ihps =>
        intro hps
        rw [partners.partnersOfAll, entries.listEntries, List.filterMap_append,
          hps q List.mem_cons_self, ihps fun r hr => hps r (List.mem_cons_of_mem _ hr)]
    cases p with
    | same t b => simp [partners, entries, List.filterMap_map]
    | alike k c b ps => simp [partners, entries, hlist ps ih]
    | fresh k c ps => simp [partners, entries, hlist ps ih]

theorem sublist_entries (p : Pairing) :
    (p.items.map fun q => (q.key, q.partner?)).Sublist p.entries := by
  induction p with
  | node p ih =>
    have hlist : ∀ ps : List Pairing,
        (∀ q ∈ ps, (q.items.map fun q => (q.key, q.partner?)).Sublist q.entries) →
        ((allItems ps).map fun q => (q.key, q.partner?)).Sublist (entries.listEntries ps) := by
      intro ps
      induction ps with
      | nil => exact fun _ => .refl _
      | cons q ps ihps =>
        intro hps
        rw [allItems_cons, List.map_append]
        exact (hps q List.mem_cons_self).append (ihps fun r hr => hps r (List.mem_cons_of_mem _ hr))
    cases p with
    | same t b =>
      obtain ⟨l, c, ts⟩ := t
      obtain ⟨n, cs⟩ := b
      exact (List.nil_sublist _).cons_cons _
    | alike k c b ps => exact (hlist ps ih).cons_cons _
    | fresh k c ps => exact (hlist ps ih).cons_cons _

theorem mem_entries (hq : q ∈ p.items) : (q.key, q.partner?) ∈ p.entries :=
  (sublist_entries p).subset (List.mem_map_of_mem hq)

theorem mem_listEntries {entry : BranchKey × Option NodeId} :
    entry ∈ entries.listEntries ps ↔ ∃ p ∈ ps, entry ∈ p.entries := by
  induction ps with
  | nil => simp [entries.listEntries]
  | cons p ps ih => simp [entries.listEntries, ih]

theorem nodup_keys (h : (p.entries.map Prod.fst).Nodup) : (p.items.map key).Nodup := by
  have := h.sublist ((sublist_entries p).map Prod.fst)
  rwa [List.map_map] at this

/-- No other node has the key of the root. -/
theorem key_ne_of_child (h : (p.items.map key).Nodup) (hq : q ∈ p.items) (hr : r ∈ q.children) :
    r.key ≠ p.key := by
  intro heq
  have hrp := List.inj_on_of_nodup_map h (mem_items_of_mem_children hr hq) p.mem_items_self heq
  exact not_mem_items_of_child (hrp ▸ hr) hq

theorem mem_ids_of_mem_keysOfSame (t : Target) :
    ∀ b, (k, x) ∈ keysOfSame t b → x ∈ b.ids := by
  induction t using Labelled.inductionOn with
  | mk l c ts ih =>
    have hlist : ∀ cs, (k, x) ∈ keysOfSame.keysOfAll ts cs → ∃ c ∈ cs, x ∈ c.ids := by
      induction ts with
      | nil => exact fun cs hx => nomatch hx
      | cons t ts ihts =>
        intro cs hx
        cases cs with
        | nil => exact nomatch hx
        | cons c cs =>
          rw [keysOfSame.keysOfAll, List.mem_append] at hx
          rcases hx with hx | hx
          · exact ⟨c, List.mem_cons_self, ih t List.mem_cons_self c hx⟩
          · obtain ⟨c', hc', hx⟩ := ihts (fun t ht => ih t (List.mem_cons_of_mem _ ht)) cs hx
            exact ⟨c', List.mem_cons_of_mem _ hc', hx⟩
    rintro ⟨n, cs⟩ hx
    rw [keysOfSame] at hx
    rcases List.mem_cons.mp hx with heq | hx
    · exact (Prod.mk.inj heq).2 ▸ List.mem_map_of_mem (Branch.node_mem_nodes _)
    · obtain ⟨c, hc, hx⟩ := hlist cs hx
      obtain ⟨m, hm, rfl⟩ := List.mem_map.mp hx
      refine List.mem_map_of_mem ?_
      rw [Branch.nodes_mk]
      exact List.mem_cons_of_mem _ (Branch.mem_allNodes.mpr ⟨c, hc, hm⟩)

/-- Every partner is claimed by some node. -/
theorem exists_own_of_mem_entries (hx : (k, some x) ∈ p.entries) : ∃ q ∈ p.items, x ∈ q.own := by
  induction p with
  | node p ih =>
    have hbelow : ∀ r ∈ p.children, (k, some x) ∈ r.entries → ∃ q ∈ p.items, x ∈ q.own := by
      intro r hr hx
      obtain ⟨q, hq, hxq⟩ := ih r hr hx
      exact ⟨q, mem_items.mpr (.inr ⟨r, hr, hq⟩), hxq⟩
    cases p with
    | same t b =>
      obtain ⟨⟨key, y⟩, he, heq⟩ := List.mem_map.mp hx
      obtain ⟨rfl, hy⟩ := Prod.mk.inj heq
      obtain rfl := Option.some.inj hy
      exact ⟨_, mem_items_self _, mem_ids_of_mem_keysOfSame t b he⟩
    | alike key c b ps =>
      rcases List.mem_cons.mp hx with heq | hx
      · obtain rfl := Option.some.inj (Prod.mk.inj heq).2
        exact ⟨_, mem_items_self _, List.mem_singleton_self _⟩
      · obtain ⟨r, hr, hx⟩ := mem_listEntries.mp hx
        exact hbelow r hr hx
    | fresh key c ps =>
      rcases List.mem_cons.mp hx with heq | hx
      · exact nomatch (Prod.mk.inj heq).2
      · obtain ⟨r, hr, hx⟩ := mem_listEntries.mp hx
        exact hbelow r hr hx

/-! ### Targets -/

/-- A pairing has the keys and the contents of a target, down to where a whole branch exists. -/
def Follows : Pairing → Target → Prop
  | same t _, u => t = u
  | alike k c _ ps, .mk l c' ts => k = l.key ∧ c = c' ∧ listFollows ps ts
  | fresh k c ps, .mk l c' ts => k = l.key ∧ c = c' ∧ listFollows ps ts
where
  listFollows : List Pairing → List Target → Prop
    | [], [] => True
    | p :: ps, t :: ts => Follows p t ∧ listFollows ps ts
    | _, _ => False

theorem listFollows_iff : Follows.listFollows ps ts ↔ List.Forall₂ Follows ps ts := by
  induction ps generalizing ts with
  | nil => cases ts <;> simp [Follows.listFollows]
  | cons p ps ih => cases ts <;> simp [Follows.listFollows, ih]

theorem follows_iff (hp : p.isSame = false) : p.Follows (.mk l c ts) ↔
    p.key = l.key ∧ p.content = c ∧ List.Forall₂ Follows p.children ts := by
  cases p with
  | same t b => exact nomatch hp
  | alike k c b ps => exact and_congr_right' (and_congr_right' listFollows_iff)
  | fresh k c ps => exact and_congr_right' (and_congr_right' listFollows_iff)

theorem sublist_keysOfSame (t : Target) :
    ∀ b, ((keysOfSame t b).map Prod.fst).Sublist (t.labels.map Label.key) := by
  induction t using Labelled.inductionOn with
  | mk l c ts ih =>
    rintro ⟨n, cs⟩
    have hlist : ∀ cs, ((keysOfSame.keysOfAll ts cs).map Prod.fst).Sublist
        ((Labelled.allLabels ts).map Label.key) := by
      induction ts with
      | nil => exact fun cs => List.nil_sublist _
      | cons t ts ihts =>
        intro cs
        cases cs with
        | nil => exact List.nil_sublist _
        | cons c cs =>
          rw [keysOfSame.keysOfAll, List.map_append,
            show Labelled.allLabels (t :: ts) = t.labels ++ Labelled.allLabels ts from rfl,
            List.map_append]
          exact (ih t List.mem_cons_self c).append
            (ihts (fun t ht => ih t (List.mem_cons_of_mem _ ht)) cs)
    exact (hlist cs).cons_cons _

/-- The keys of a pairing are those of the target, apart from keys inside of branches that exist
already. -/
theorem Follows.sublist_keys (h : p.Follows t) :
    (p.entries.map Prod.fst).Sublist (t.labels.map Label.key) := by
  induction p generalizing t with
  | node p ih =>
    have hlist : ∀ (ps : List Pairing) (ts : List Target),
        (∀ q ∈ ps, ∀ {t : Target}, q.Follows t →
          (q.entries.map Prod.fst).Sublist (t.labels.map Label.key)) →
        List.Forall₂ Follows ps ts → ((entries.listEntries ps).map Prod.fst).Sublist
          ((Labelled.allLabels ts).map Label.key) := by
      intro ps ts hps hall
      induction hall with
      | nil => exact .refl _
      | @cons q t ps ts hqt hall ihall =>
        rw [entries.listEntries, List.map_append,
          show Labelled.allLabels (t :: ts) = t.labels ++ Labelled.allLabels ts from rfl,
          List.map_append]
        exact (hps q List.mem_cons_self hqt).append
          (ihall fun r hr => hps r (List.mem_cons_of_mem _ hr))
    cases p with
    | same s b =>
      obtain rfl : s = t := h
      rw [entries, List.map_map]
      exact sublist_keysOfSame s b
    | alike k c b ps =>
      obtain ⟨l, c', ts⟩ := t
      obtain ⟨rfl, -, hall⟩ := (follows_iff rfl).mp h
      exact (hlist ps ts ih hall).cons_cons _
    | fresh k c ps =>
      obtain ⟨l, c', ts⟩ := t
      obtain ⟨rfl, -, hall⟩ := (follows_iff rfl).mp h
      exact (hlist ps ts ih hall).cons_cons _

/-- The keys of a pairing are different, as the labels of the target are. -/
theorem Follows.nodup_entries (h : p.Follows t) (ht : t.labels.Nodup) :
    (p.entries.map Prod.fst).Nodup :=
  (ht.map Label.key_injective).sublist h.sublist_keys

theorem Follows.content_eq (h : p.Follows t) : p.content = t.content := by
  cases p with
  | same s b => exact congrArg Labelled.content h
  | alike k c b ps =>
    obtain ⟨l, c', ts⟩ := t
    exact ((follows_iff rfl).mp h).2.1
  | fresh k c ps =>
    obtain ⟨l, c', ts⟩ := t
    exact ((follows_iff rfl).mp h).2.1

/-- What the target says of texts, fragments and pages is said of the nodes of the pairing. -/
theorem Follows.plain (h : p.Follows t) (ht : t.Plain) : ∀ q ∈ p.items, ∀ r ∈ q.children,
    q.content.kind.isText = false ∧ r.content.kind.isFragment = false ∧
      r.content.kind.isPage = false := by
  induction p generalizing t with
  | node p ih =>
    intro q hq r hr
    obtain ⟨l, c, ts⟩ := t
    obtain ⟨htext, hts⟩ := Labelled.plain_mk.mp ht
    cases hp : p.isSame with
    | true =>
      cases p with
      | same s b =>
        obtain rfl := List.mem_singleton.mp hq
        exact nomatch hr
      | alike k c b ps => exact nomatch hp
      | fresh k c ps => exact nomatch hp
    | false =>
      obtain ⟨-, hc, hall⟩ := (follows_iff hp).mp h
      rcases mem_items.mp hq with rfl | ⟨s, hs, hq⟩
      · obtain ⟨u, hu, hru⟩ := exists_of_forall₂ hall hr
        obtain ⟨hfragment, hpage, -⟩ := hts u hu
        refine ⟨?_, hru.content_eq ▸ hfragment, hru.content_eq ▸ hpage⟩
        rw [hc, Bool.eq_false_iff]
        intro hkind
        rw [htext hkind] at hu
        exact nomatch hu
      · obtain ⟨u, hu, hsu⟩ := exists_of_forall₂ hall hs
        exact ih s hs hsu (hts u hu).2.2 q hq r hr

end Pairing

end ContentTree.Merge
