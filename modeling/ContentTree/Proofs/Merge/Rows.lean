import ContentTree.Proofs.Merge.Renaming

/-!
# What becomes of each node of the target

A pairing has no identifiers of the target. Laid over the branch that the target has been made of,
it says of each node there what becomes of it: the node belongs to a branch that exists already as a
whole, or it has a partner of its own, or it has to be created. The rows of a pairing say so in
document order.

## Main definitions

* `Mark`, `Row`: what becomes of a node of the target, and the node with its key.
* `Pairing.rows`: the rows of a pairing that is laid over a branch.
* `Pairing.Pairs`: a pairing has the contents of a branch, down to the branches that exist already.
* `Pairing.Over`: the nodes of a pairing, each over the branch of the target that it is about.

## Main results

* `Pairing.Follows.pairs`: a pairing that follows the target of a branch is one of the branch.
* `Pairing.Pairs.nodes_rows`, `Pairing.Pairs.entries_rows`, `Pairing.Pairs.partners_rows`: the
  nodes, the keys and the partners in the rows.
* `Pairing.mem_rows`: every row belongs to a node of the pairing and to the branch it is about.
-/

namespace ContentTree

variable {t u : Tree} {x y : NodeId}

/-! ### Two branches side by side -/

theorem zip_flatMap {α β γ δ : Type} {f : α → List γ} {g : β → List δ} {as : List α} {bs : List β}
    (h : List.Forall₂ (fun a b => (f a).length = (g b).length) as bs) :
    (as.flatMap f).zip (bs.flatMap g) = (as.zip bs).flatMap fun z => (f z.1).zip (g z.2) := by
  induction h with
  | nil => rfl
  | cons hab _ ih =>
    rw [List.flatMap_cons, List.flatMap_cons, List.zip_append hab, ih, List.zip_cons_cons,
      List.flatMap_cons]

theorem flatMap_zip_left {α β γ : Type} {as : List α} {bs : List β} (h : as.length = bs.length)
    (f : α → List γ) : (as.zip bs).flatMap (fun z => f z.1) = as.flatMap f := by
  have hmap : (as.zip bs).map Prod.fst = as := List.map_fst_zip h.le
  rw [← List.flatMap_map Prod.fst f, hmap]

theorem flatMap_zip_right {α β γ : Type} {as : List α} {bs : List β} (h : as.length = bs.length)
    (f : β → List γ) : (as.zip bs).flatMap (fun z => f z.2) = bs.flatMap f := by
  have hmap : (as.zip bs).map Prod.snd = bs := List.map_snd_zip h.ge
  rw [← List.flatMap_map Prod.snd f, hmap]

namespace Branch

variable {b c : Branch}

open Merge (Labelled)

theorem Alike.length_ids (h : b.Alike c) : b.ids.length = c.ids.length := by
  have hb := Labelled.equals_ofBranch b
  have hc := Labelled.equals_of_alike hb h
  rw [← Labelled.length_labels_of_equals hb, Labelled.length_labels_of_equals hc]

/-- Where two branches are alike, the branches of two nodes at the same place in them are alike. -/
theorem Alike.exists_of_mem_zip (h : b.Alike c) (hb : b.Shows u) (hc : c.Shows t)
    (hxy : (x, y) ∈ b.ids.zip c.ids) :
    ∃ v d : Branch, v.id = x ∧ v.Shows u ∧ d.id = y ∧ d.Shows t ∧ v.Alike d ∧
      v.ids.zip d.ids ⊆ b.ids.zip c.ids := by
  induction b generalizing c with
  | mk n bs ih =>
    obtain ⟨m, cs⟩ := c
    obtain ⟨-, hall⟩ := alike_mk.mp h
    have hzip : (ids ⟨n, bs⟩).zip (ids ⟨m, cs⟩) =
        (n.id, m.id) :: (bs.zip cs).flatMap fun z => z.1.ids.zip z.2.ids := by
      rw [ids_mk, ids_mk, List.zip_cons_cons, zip_flatMap (hall.imp fun _ _ => Alike.length_ids)]
    rw [hzip] at hxy ⊢
    rcases List.mem_cons.mp hxy with heq | hxy
    · obtain ⟨rfl, rfl⟩ := Prod.mk.inj heq
      exact ⟨_, _, rfl, hb, rfl, hc, h, hzip ▸ List.Subset.refl _⟩
    · -- The place is inside two children at the same place.
      obtain ⟨⟨v, d⟩, hvd, hxy⟩ := List.mem_flatMap.mp hxy
      obtain ⟨hv, hd⟩ := List.of_mem_zip hvd
      obtain ⟨v', d', hx, hv', hy, hd', halike, hsub⟩ :=
        ih v hv (List.forall₂_zip hall hvd) (hb.of_mem_children hv) (hc.of_mem_children hd) hxy
      refine ⟨v', d', hx, hv', hy, hd', halike, fun z hz => ?_⟩
      exact List.mem_cons_of_mem _ (List.mem_flatMap.mpr ⟨(v, d), hvd, hsub hz⟩)

end Branch

namespace Merge

variable {w v d : Branch} {b : Branch} {s : Target} {k : BranchKey} {c : Content}

/-! ### Targets of branches -/

namespace Target

/-- A target is that of a branch, with labels that are numbered from some occurrences on. -/
def Of (s : Target) (w : Branch) : Prop :=
  ∃ o, s = (number (Labelled.ofBranch w) o).1

theorem of_ofBranch (w : Branch) : (ofBranch w).Of w := ⟨∅, rfl⟩

theorem of_numberAll (ws : List Branch) (o : Occurrences) :
    List.Forall₂ Of (number.numberAll (Labelled.ofBranch.ofBranches ws) o).1 ws := by
  induction ws generalizing o with
  | nil => exact .nil
  | cons w ws ih => exact .cons ⟨o, rfl⟩ (ih _)

theorem Of.equals (h : s.Of w) : s.equals w = true := by
  obtain ⟨o, rfl⟩ := h
  exact (numbers_number _ o).2 w (Labelled.equals_ofBranch w)

theorem Of.content_eq (h : s.Of w) : s.content = w.content := by
  obtain ⟨o, rfl⟩ := h
  cases w
  rfl

theorem Of.children (h : s.Of w) : List.Forall₂ Of s.children w.children := by
  obtain ⟨o, rfl⟩ := h
  obtain ⟨n, ws⟩ := w
  exact of_numberAll ws _

end Target

/-! ### Rows -/

/-- What becomes of a node of the target. -/
inductive Mark
  /-- The node belongs to a branch that exists already as a whole, with this node in its place. -/
  | exact (id : NodeId)
  /-- The node exists, with another content or with other nodes below it. -/
  | alike (id : NodeId)
  /-- The node does not exist. -/
  | fresh
deriving DecidableEq

/-- The partner of a node of the target. -/
def Mark.partner? : Mark → Option NodeId
  | exact id => some id
  | alike id => some id
  | fresh => none

theorem Mark.partner?_eq_none_iff {m : Mark} : m.partner? = none ↔ m = fresh := by
  cases m <;> simp [partner?]

/-- A node of the target with its key and with what becomes of it. -/
structure Row where
  node : NodeId
  key : BranchKey
  mark : Mark
deriving DecidableEq

namespace Row

/-- The partner of the node of a row. -/
def partner? (r : Row) : Option NodeId :=
  r.mark.partner?

/-- What a row says of its key. -/
def entry (r : Row) : BranchKey × Option NodeId :=
  (r.key, r.partner?)

end Row

namespace Pairing

variable {p q r : Pairing} {ps : List Pairing} {ws : List Branch} {row : Row}

/-- What becomes of the root of a pairing. -/
def mark : Pairing → Mark
  | same _ b => .exact b.id
  | alike _ _ b _ => .alike b.id
  | fresh .. => .fresh

theorem partner?_mark (p : Pairing) : p.mark.partner? = p.partner? := by
  cases p <;> rfl

theorem mark_eq_fresh_iff : p.mark = .fresh ↔ p.isFresh = true := by
  rw [← partner?_eq_none_iff, ← partner?_mark, Mark.partner?_eq_none_iff]

/-- The rows of one node of a pairing: all those of a branch that exists already as a whole, else
the one of the node itself. -/
def ownRows : Pairing → Branch → List Row
  | same t b, w => (w.ids.zip (keysOfSame t b)).map fun z => ⟨z.1, z.2.1, .exact z.2.2⟩
  | p, w => [⟨w.id, p.key, p.mark⟩]

/-- The rows of a pairing that is laid over a branch, in document order. -/
def rows : Pairing → Branch → List Row
  | same t b, w => ownRows (same t b) w
  | alike k c b ps, w => ownRows (alike k c b ps) w ++ listRows ps w.children
  | fresh k c ps, w => ownRows (fresh k c ps) w ++ listRows ps w.children
where
  listRows : List Pairing → List Branch → List Row
    | p :: ps, w :: ws => p.rows w ++ listRows ps ws
    | _, _ => []

theorem listRows_eq (ps : List Pairing) (ws : List Branch) :
    rows.listRows ps ws = (ps.zip ws).flatMap fun z => z.1.rows z.2 := by
  induction ps generalizing ws with
  | nil => simp [rows.listRows]
  | cons p ps ih => cases ws <;> simp [rows.listRows, ih]

theorem rows_eq (p : Pairing) (w : Branch) :
    p.rows w = p.ownRows w ++ (p.children.zip w.children).flatMap fun z => z.1.rows z.2 := by
  cases p with
  | same t b => simp [rows, children]
  | alike k c b ps => rw [rows, listRows_eq, children]
  | fresh k c ps => rw [rows, listRows_eq, children]

theorem ownRows_eq (hp : p.isSame = false) (w : Branch) :
    p.ownRows w = [⟨w.id, p.key, p.mark⟩] := by
  cases p with
  | same t b => cases hp
  | alike k c b ps => rfl
  | fresh k c ps => rfl

/-! ### Pairings of a branch -/

/-- A pairing is one of a branch: it has the contents of the branch, down to where a whole branch
exists already that is like the one of the target. -/
def Pairs : Pairing → Branch → Prop
  | same t b, w => t.equals b = true ∧ t.equals w = true
  | alike _ c _ ps, w => c = w.content ∧ listPairs ps w.children
  | fresh _ c ps, w => c = w.content ∧ listPairs ps w.children
where
  listPairs : List Pairing → List Branch → Prop
    | [], [] => True
    | p :: ps, w :: ws => Pairs p w ∧ listPairs ps ws
    | _, _ => False

theorem listPairs_iff : Pairs.listPairs ps ws ↔ List.Forall₂ Pairs ps ws := by
  induction ps generalizing ws with
  | nil => cases ws <;> simp [Pairs.listPairs]
  | cons p ps ih => cases ws <;> simp [Pairs.listPairs, ih]

theorem pairs_iff (hp : p.isSame = false) :
    p.Pairs w ↔ p.content = w.content ∧ List.Forall₂ Pairs p.children w.children := by
  cases p with
  | same t b => cases hp
  | alike k c b ps => exact and_congr_right' listPairs_iff
  | fresh k c ps => exact and_congr_right' listPairs_iff

/-- A pairing that follows the target of a branch is one of the branch. -/
theorem Follows.pairs (h : p.Follows s) (hs : s.Of w)
    (hsame : ∀ q ∈ p.items, ∀ t b, q = same t b → t.equals b = true) : p.Pairs w := by
  induction p generalizing s w with
  | node p ih =>
    cases hp : p.isSame with
    | true =>
      cases p with
      | same t b =>
        obtain rfl : t = s := h
        exact ⟨hsame _ (mem_items_self _) t b rfl, hs.equals⟩
      | alike k c b ps => cases hp
      | fresh k c ps => cases hp
    | false =>
      obtain ⟨l, content, ts⟩ := s
      obtain ⟨-, hcontent, hall⟩ := (follows_iff hp).mp h
      refine (pairs_iff hp).mpr ⟨hcontent.trans hs.content_eq, ?_⟩
      -- Both lists of children go along with the targets between them.
      have hlength := hall.length_eq.trans hs.children.length_eq
      refine List.forall₂_iff_get.mpr ⟨hlength, fun i hi hi' => ?_⟩
      have hmem := List.get_mem p.children ⟨i, hi⟩
      refine ih _ hmem (hall.get hi (hall.length_eq ▸ hi)) (hs.children.get _ hi') ?_
      intro q hq
      exact hsame q (mem_items.mpr (.inr ⟨_, hmem, hq⟩))

/-! ### The columns of the rows -/

theorem keysOfAll_eq (ts : List Target) (bs : List Branch) :
    keysOfSame.keysOfAll ts bs = (ts.zip bs).flatMap fun z => keysOfSame z.1 z.2 := by
  induction ts generalizing bs with
  | nil => simp [keysOfSame.keysOfAll]
  | cons t ts ih => cases bs <;> simp [keysOfSame.keysOfAll, ih]

theorem map_allLabels (ts : List Target) :
    (Labelled.allLabels ts).map Label.key = ts.flatMap fun t => t.labels.map Label.key := by
  induction ts with
  | nil => rfl
  | cons t ts ih =>
    rw [show Labelled.allLabels (t :: ts) = t.labels ++ Labelled.allLabels ts from rfl,
      List.map_append, ih, List.flatMap_cons]

/-- Where a whole branch exists already, its nodes go with the keys of the target one by one. -/
theorem keysOfSame_eq (h : s.equals b = true) :
    keysOfSame s b = (s.labels.map Label.key).zip b.ids := by
  induction s using Labelled.inductionOn generalizing b with
  | mk l c ts ih =>
    obtain ⟨n, bs⟩ := b
    obtain ⟨-, hall⟩ := Labelled.equals_mk.mp h
    have hlength : List.Forall₂ (fun t b => (t.labels.map Label.key).length = b.ids.length) ts bs :=
      hall.imp fun t b htb => by rw [List.length_map, Labelled.length_labels_of_equals htb]
    have hchildren := List.flatMap_congr (l := ts.zip bs) fun z hz =>
      ih z.1 (List.of_mem_zip hz).1 (List.forall₂_zip hall hz)
    rw [keysOfSame, keysOfAll_eq, hchildren, ← zip_flatMap hlength, ← map_allLabels, Branch.ids_mk]
    rfl

theorem map_fst_keysOfSame (h : s.equals b = true) :
    (keysOfSame s b).map Prod.fst = s.labels.map Label.key := by
  rw [keysOfSame_eq h]
  exact List.map_fst_zip (by rw [List.length_map, Labelled.length_labels_of_equals h])

theorem map_snd_keysOfSame (h : s.equals b = true) : (keysOfSame s b).map Prod.snd = b.ids := by
  rw [keysOfSame_eq h]
  exact List.map_snd_zip (by rw [List.length_map, Labelled.length_labels_of_equals h])

theorem length_keysOfSame (h : s.equals b = true) : (keysOfSame s b).length = s.labels.length := by
  rw [← List.length_map Prod.fst, map_fst_keysOfSame h, List.length_map]

theorem length_ids_eq_length_keysOfSame (hb : s.equals b = true) (hw : s.equals w = true) :
    w.ids.length = (keysOfSame s b).length := by
  rw [← Labelled.length_labels_of_equals hw, length_keysOfSame hb]

theorem allItems_eq (ps : List Pairing) : allItems ps = ps.flatMap items := by
  induction ps with
  | nil => rfl
  | cons p ps ih => rw [allItems_cons, ih, List.flatMap_cons]

theorem listEntries_eq (ps : List Pairing) : entries.listEntries ps = ps.flatMap entries := by
  induction ps with
  | nil => rfl
  | cons p ps ih => rw [entries.listEntries, ih, List.flatMap_cons]

theorem entries_eq (hp : p.isSame = false) :
    p.entries = (p.key, p.partner?) :: p.children.flatMap entries := by
  rw [← listEntries_eq]
  cases p with
  | same t b => cases hp
  | alike k c b ps => rfl
  | fresh k c ps => rfl

theorem own_eq (hp : p.isSame = false) : p.own = p.partner?.toList := by
  cases p with
  | same t b => cases hp
  | alike k c b ps => rfl
  | fresh k c ps => rfl

/-- The keys of a pairing are those of the target, one by one. -/
theorem Follows.keys_eq (h : p.Follows s)
    (hsame : ∀ q ∈ p.items, ∀ t b, q = same t b → t.equals b = true) :
    p.entries.map Prod.fst = s.labels.map Label.key := by
  induction p generalizing s with
  | node p ih =>
    have hlist : ∀ (ps : List Pairing) (ts : List Target), (∀ q ∈ ps, q ∈ p.children) →
        List.Forall₂ Follows ps ts → (entries.listEntries ps).map Prod.fst =
          (Labelled.allLabels ts).map Label.key := by
      intro ps ts hps hall
      induction hall with
      | nil => rfl
      | @cons q t ps ts hqt _ ihall =>
        obtain ⟨hq, hps⟩ := List.forall_mem_cons.mp hps
        rw [entries.listEntries, List.map_append, ihall hps, ih q hq hqt fun r hr =>
          hsame r (mem_items.mpr (.inr ⟨q, hq, hr⟩)), ← List.map_append]
        rfl
    cases p with
    | same t b =>
      obtain rfl : t = s := h
      rw [entries, List.map_map]
      exact map_fst_keysOfSame (hsame _ (mem_items_self _) t b rfl)
    | alike k c b ps =>
      obtain ⟨l, c', ts⟩ := s
      obtain ⟨rfl, -, hall⟩ := (follows_iff rfl).mp h
      exact congrArg _ (hlist ps ts (fun _ => id) hall)
    | fresh k c ps =>
      obtain ⟨l, c', ts⟩ := s
      obtain ⟨rfl, -, hall⟩ := (follows_iff rfl).mp h
      exact congrArg _ (hlist ps ts (fun _ => id) hall)

/-- What is gathered from the rows of every node, the root first, is gathered from all rows. -/
theorem Pairs.eq_flatMap_rows {α : Type} {f : Pairing → Branch → List α} {g : Row → List α}
    (same : ∀ t b w, t.equals b = true → t.equals w = true →
      f (same t b) w = (ownRows (same t b) w).flatMap g)
    (node : ∀ p w, p.isSame = false → p.children.length = w.children.length →
      f p w = g ⟨w.id, p.key, p.mark⟩ ++ (p.children.zip w.children).flatMap fun z => f z.1 z.2)
    (h : p.Pairs w) : f p w = (p.rows w).flatMap g := by
  induction p generalizing w with
  | node p ih =>
    cases hp : p.isSame with
    | true =>
      cases p with
      | same t b => exact same t b w h.1 h.2
      | alike k c b ps => cases hp
      | fresh k c ps => cases hp
    | false =>
      obtain ⟨-, hall⟩ := (pairs_iff hp).mp h
      have hchildren := List.flatMap_congr (l := p.children.zip w.children) fun z hz =>
        ih z.1 (List.of_mem_zip hz).1 (List.forall₂_zip hall hz)
      rw [node p w hp hall.length_eq, hchildren, rows_eq, ownRows_eq hp, List.flatMap_append,
        List.flatMap_singleton, List.flatMap_assoc]

/-- Every node of the branch has one row, in document order. -/
theorem Pairs.nodes_rows (h : p.Pairs w) : (p.rows w).map Row.node = w.ids := by
  rw [List.map_eq_flatMap]
  refine (eq_flatMap_rows (f := fun _ w => w.ids) (fun t b w hb hw => ?_)
    (fun p w _ hlength => ?_) h).symm
  · rw [← List.map_eq_flatMap, ownRows, List.map_map]
    exact (List.map_fst_zip (length_ids_eq_length_keysOfSame hb hw).le).symm
  · rw [flatMap_zip_right hlength, Branch.ids_eq]
    rfl

/-- The rows say of the keys what the pairing says. -/
theorem Pairs.entries_rows (h : p.Pairs w) : (p.rows w).map Row.entry = p.entries := by
  rw [List.map_eq_flatMap]
  refine (eq_flatMap_rows (f := fun p _ => p.entries) (fun t b w hb hw => ?_)
    (fun p w hp hlength => ?_) h).symm
  · have hzip : (w.ids.zip (keysOfSame t b)).map Prod.snd = keysOfSame t b :=
      List.map_snd_zip (length_ids_eq_length_keysOfSame hb hw).ge
    rw [← List.map_eq_flatMap, ownRows, List.map_map, entries]
    conv_lhs => rw [← hzip, List.map_map]
    rfl
  · rw [flatMap_zip_left hlength, entries_eq hp, ← partner?_mark]
    rfl

/-- The partners in the rows are the existing nodes that the nodes of the pairing claim. -/
theorem Pairs.partners_rows (h : p.Pairs w) :
    (p.rows w).filterMap Row.partner? = p.items.flatMap own := by
  rw [List.filterMap_eq_flatMap_toList]
  refine (eq_flatMap_rows (f := fun p _ => p.items.flatMap own) (fun t b w hb hw => ?_)
    (fun p w hp hlength => ?_) h).symm
  · have hzip : (w.ids.zip (keysOfSame t b)).map Prod.snd = keysOfSame t b :=
      List.map_snd_zip (length_ids_eq_length_keysOfSame hb hw).ge
    rw [show (same t b).items.flatMap own = b.ids from List.append_nil _,
      ← map_snd_keysOfSame hb, ← List.filterMap_eq_flatMap_toList, ownRows, List.filterMap_map]
    conv_lhs => rw [← hzip, List.map_map]
    exact (congrFun (List.filterMap_eq_map (f := Prod.snd ∘ Prod.snd)) _).symm
  · rw [items_eq, List.flatMap_cons, allItems_eq, List.flatMap_assoc,
      flatMap_zip_left hlength fun q => q.items.flatMap own, own_eq hp, ← partner?_mark]
    rfl

/-! ### Where rows come from -/

/-- A node of a pairing is over a branch of the target that it is about: from the roots one comes to
both by going down to children at the same place. -/
inductive Over (p : Pairing) (w : Branch) : Pairing → Branch → Prop
  | root : Over p w p w
  | child {q r : Pairing} {v d : Branch} (h : Over p w q v)
      (hmem : (r, d) ∈ q.children.zip v.children) : Over p w r d

theorem Over.trans (h : Over p w q v) (h' : Over q v r d) : Over p w r d := by
  induction h' with
  | root => exact h
  | child _ hmem ih => exact ih.child hmem

theorem Over.mem_items (h : Over p w q v) : q ∈ p.items := by
  induction h with
  | root => exact mem_items_self p
  | child _ hmem ih => exact mem_items_of_mem_children (List.of_mem_zip hmem).1 ih

theorem Over.shows (h : Over p w q v) (hw : w.Shows u) : v.Shows u := by
  induction h with
  | root => exact hw
  | child _ hmem ih => exact ih.of_mem_children (List.of_mem_zip hmem).2

theorem Over.pairs (h : Over p w q v) (hp : p.Pairs w) : q.Pairs v := by
  induction h with
  | root => exact hp
  | child _ hmem ih =>
    have hsame := isSame_eq_false_of_child (List.of_mem_zip hmem).1
    exact List.forall₂_zip ((pairs_iff hsame).mp ih).2 hmem

theorem Over.rows_subset (h : Over p w q v) : q.rows v ⊆ p.rows w := by
  induction h with
  | root => exact List.Subset.refl _
  | @child q r v d _ hmem ih =>
    refine List.Subset.trans (fun row hrow => ?_) ih
    rw [rows_eq q]
    exact List.mem_append_right _ (List.mem_flatMap.mpr ⟨(r, d), hmem, hrow⟩)

/-- Every row belongs to a node of the pairing and to the branch it is about. -/
theorem mem_rows : row ∈ p.rows w ↔ ∃ q v, Over p w q v ∧ row ∈ q.ownRows v := by
  constructor
  · induction p generalizing w with
    | node p ih =>
      intro hrow
      rw [rows_eq, List.mem_append, List.mem_flatMap] at hrow
      rcases hrow with hrow | ⟨⟨r, d⟩, hmem, hrow⟩
      · exact ⟨p, w, .root, hrow⟩
      · obtain ⟨q, v, hover, hown⟩ := ih r (List.of_mem_zip hmem).1 hrow
        exact ⟨q, v, (Over.root.child hmem).trans hover, hown⟩
  · rintro ⟨q, v, hover, hown⟩
    apply hover.rows_subset
    rw [rows_eq]
    exact List.mem_append_left _ hown

end Pairing

end Merge

end ContentTree
