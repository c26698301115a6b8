import ContentTree.Proofs.Merge.Scene

/-!
# Carrying out deletions, creations and moves

The operations of a plan are carried out one after the other, and each of them succeeds. After the
deletions the scene is set; the creations fill the index; and the moves, the last sibling first,
bring the children of every node to the end of its list of children, in the order of the target.

## Main definitions

* `Carries`: operations are carried out one after the other, and none is refused.
* `Lined`: the children of a node, as far as they exist, are the last ones in its list, in order.
* `Fills`: operations are carried out after which several nodes of the pairing are in the index.

## Main results

* `carries_deletes`, `Setting.fills_creates`, `Setting.carries_moves`: what the operations of a plan
  do.
-/

namespace ContentTree.Merge

variable (settings : Settings) {editor : Editor} {os os' : List Operation}
  {index index' index'' : KeyIndex} {d d' d'' : Draft} {t : Tree} {root x y z : NodeId}
  {p q r c : Pairing} {ps rs : List Pairing} {claimed : Pairing.Claimed} {gone : List NodeId}

/-! ### One operation after the other -/

/-- Operations are carried out one after the other, and none is refused. -/
inductive Carries (settings : Settings) (editor : Editor) :
    List Operation → KeyIndex → Draft → KeyIndex → Draft → Prop
  | nil {index : KeyIndex} {d : Draft} : Carries settings editor [] index d index d
  | cons {o : Operation} {os : List Operation} {index index' index'' : KeyIndex} {d d' d'' : Draft}
    {outcome : Outcome}
    (run : (Apply.operation settings index o).run editor d = (.ok (outcome, index'), d'))
    (rest : Carries settings editor os index' d' index'' d'') :
    Carries settings editor (o :: os) index d index'' d''

namespace Carries

variable {settings}

theorem append (h : Carries settings editor os index d index' d')
    (h' : Carries settings editor os' index' d' index'' d'') :
    Carries settings editor (os ++ os') index d index'' d'' := by
  induction h with
  | nil => exact h'
  | cons run _ ih => exact .cons run (ih h')

/-- The operations of several nodes are carried out when those of each node are, and undo nothing
that is done for others. -/
theorem flatMap {qs : List Pairing} {f : Pairing → List Operation} {Holds : Draft → Prop}
    {Done : Draft → Pairing → Prop}
    (hstep : ∀ q ∈ qs, ∀ d, Holds d → ∃ d', Carries settings editor (f q) index d index d' ∧
      Holds d' ∧ Done d' q ∧ ∀ r ∈ qs, Done d r → Done d' r) (hd : Holds d) :
    ∃ d', Carries settings editor (qs.flatMap f) index d index d' ∧ Holds d' ∧
      ∀ q ∈ qs, Done d' q := by
  -- Along the list, whatever is done for any of the nodes stays done.
  have hlist : ∀ rs : List Pairing, (∀ r ∈ rs, r ∈ qs) → ∀ d, Holds d →
      ∃ d', Carries settings editor (rs.flatMap f) index d index d' ∧ Holds d' ∧
        (∀ r ∈ rs, Done d' r) ∧ ∀ r ∈ qs, Done d r → Done d' r := by
    intro rs
    induction rs with
    | nil => exact fun _ d hd => ⟨d, .nil, hd, fun _ hr => (nomatch hr), fun _ _ h => h⟩
    | cons q rs ih =>
      intro hrs d hd
      have hq := hrs q List.mem_cons_self
      obtain ⟨d₁, hcarries, hd₁, hdone, hkept⟩ := hstep q hq d hd
      obtain ⟨d₂, hcarries', hd₂, hdone', hkept'⟩ :=
        ih (fun r hr => hrs r (List.mem_cons_of_mem _ hr)) d₁ hd₁
      rw [List.flatMap_cons]
      exact ⟨d₂, hcarries.append hcarries', hd₂,
        List.forall_mem_cons.mpr ⟨hkept' q hq hdone, hdone'⟩,
        fun r hr h => hkept' r hr (hkept r hr h)⟩
  obtain ⟨d', hcarries, hd', hdone, -⟩ := hlist qs (fun _ h => h) d hd
  exact ⟨d', hcarries, hd', hdone⟩

theorem run_operations (h : Carries settings editor os index d index' d') :
    ∃ entries, (Apply.operations settings index os).run editor d = (.ok entries, d') := by
  induction h with
  | nil => exact ⟨[], rfl⟩
  | @cons o os index index' index'' d d' d'' outcome run _ ih =>
    obtain ⟨entries, hentries⟩ := ih
    refine ⟨(o, outcome) :: entries, ?_⟩
    simp only [Apply.operations, Edit.run_bind, run, hentries, Edit.run_pure]

end Carries

/-! ### Deletions -/

section Deletions

variable (hsynced : ∀ id, t.isSynced id = false) (haccess : editor.access = .unrestricted)
include hsynced haccess

theorem free_of_sharing_eq {d : Tree} (h : d.sharing = t.sharing) : editor.Free d :=
  ⟨haccess, fun id => by rw [Tree.isSynced, h]; exact hsynced id⟩

/-- Nodes below others are deleted one by one. -/
theorem carries_deletes (index : KeyIndex) (ht : t.WellFormed) (ids : List NodeId) :
    ∀ gone d, Trimmed t d.tree gone → (∀ x ∈ ids, ∃ y, t.Below x y) →
    ∃ d', Carries settings editor (ids.map .delete) index d index d' ∧
      Trimmed t d'.tree (ids.reverse ++ gone) := by
  induction ids with
  | nil => exact fun gone d h _ => ⟨d, .nil, h⟩
  | cons x ids ih =>
    intro gone d h hids
    obtain ⟨y, hxy⟩ := hids x List.mem_cons_self
    obtain ⟨z, hxz, -⟩ := hxy.exists_under
    obtain ⟨n, hn, -⟩ := hxz.exists_node
    obtain ⟨m, hm, hcontent⟩ := h.old hn
    have hpage : m.kind.isPage = false := by
      rw [show m.kind = n.kind from congrArg Content.kind hcontent]
      exact ht.not_page_of_under hxz hn
    have hrun : (Apply.operation settings index (.delete x)).run editor d =
        (.ok (.applied, index), d.discard x) :=
      Apply.run_delete settings haccess h.sound.toWellFormed hm hpage
        ((free_of_sharing_eq hsynced haccess h.sharing).belowSynced x)
    obtain ⟨d', hcarries, htrimmed⟩ :=
      ih (x :: gone) (d.discard x) (h.discard ht x) fun y hy => hids y (List.mem_cons_of_mem _ hy)
    refine ⟨d', .cons hrun hcarries, ?_⟩
    rwa [List.reverse_cons, List.append_assoc]

end Deletions

/-! ### Children at the end of a list -/

/-- The nodes that stand for several siblings so far. -/
def values (index : KeyIndex) (ps : List Pairing) : List NodeId :=
  ps.filterMap fun p => index[p.key]?

/-- The children of a node, as far as they exist, are the last ones in its list, in order. -/
def Lined (index : KeyIndex) (d : Tree) (q : Pairing) : Prop :=
  ∀ y, index[q.key]? = some y → ∃ xs, d.children y = xs ++ values index q.children

/-- No new node among several exists. -/
def Missing (index : KeyIndex) (ps : List Pairing) : Prop :=
  ∀ q ∈ ps, q.isFresh = true → index[q.key]? = none

theorem getElem?_insert {k k' : BranchKey} :
    (index.insert k x)[k']? = if k' = k then some x else index[k']? := by
  rw [Std.ExtTreeMap.getElem?_insert]
  exact if_congr (Std.compare_eq_iff_eq.trans eq_comm) rfl rfl

theorem values_append (index : KeyIndex) (ps rs : List Pairing) :
    values index (ps ++ rs) = values index ps ++ values index rs :=
  List.filterMap_append

theorem values_cons_of_none (h : index[q.key]? = none) :
    values index (q :: ps) = values index ps :=
  List.filterMap_cons_none h

theorem values_cons_of_some (h : index[q.key]? = some x) :
    values index (q :: ps) = x :: values index ps :=
  List.filterMap_cons_some h

theorem mem_values : x ∈ values index ps ↔ ∃ q ∈ ps, index[q.key]? = some x := by
  simp [values]

/-- A node that is put below another does not disturb the children of third nodes. -/
theorem Lined.of_enters {d d' : Tree} {reference : Option NodeId} (hlined : Lined index d r)
    (henters : Enters p index index' d d' q c y x reference) (h : Scene t root p index d)
    (h' : Scene t root p index' d') (hf : p.Fits t root claimed) (hr : r ∈ p.items) (hne : r ≠ q)
    (hkey : index'[r.key]? = index[r.key]?) : Lined index' d' r := by
  intro w hw
  rw [hkey] at hw
  have hwy : w ≠ y := by
    rintro rfl
    exact hne (h.injective r hr q henters.item w hw henters.parent)
  have hparent : c ∉ r.children := fun hc =>
    hne (hf.parent_unique hr henters.item hc henters.child)
  -- The child belongs to one parent only, so that no other list of siblings is concerned.
  have hvalues : values index' r.children = values index r.children := by
    refine List.filterMap_congr fun s hs => ?_
    refine henters.index_ne hf (Pairing.mem_items_of_mem_children hs hr) ?_
    rintro rfl
    exact hparent hs
  have hx : x ∉ values index r.children := by
    rw [← hvalues, mem_values]
    rintro ⟨s, hs, hsx⟩
    obtain rfl := h'.injective s (Pairing.mem_items_of_mem_children hs hr) c henters.child_item x
      hsx henters.index_self
    exact hparent hs
  obtain ⟨xs, hxs⟩ := hlined w hw
  exact ⟨xs.erase x, by
    rw [henters.puts.children_ne w hwy, hxs, hvalues, Tree.erase_append_of_not_mem hx]⟩

/-! ### Creations -/

/-- What does not change from the creations to the moves: the tree of the beginning, the pairing,
and who carries the operations out. -/
structure Ground (t : Tree) (root : NodeId) (claimed : Pairing.Claimed) (p : Pairing)
    (editor : Editor) : Prop where
  wellFormed : t.WellFormed
  fits : p.Fits t root claimed
  access : editor.access = .unrestricted
  document_page : ∀ page, t.document? root = some page →
    ∃ n, t.node? page = some n ∧ n.kind.isPage = true

/-- The same where no node is synced. -/
structure Setting (t : Tree) (root : NodeId) (claimed : Pairing.Claimed) (p : Pairing)
    (editor : Editor) : Prop where
  wellFormed : t.WellFormed
  fits : p.Fits t root claimed
  unsynced : ∀ id, t.isSynced id = false
  access : editor.access = .unrestricted
  document_page : ∀ page, t.document? root = some page →
    ∃ n, t.node? page = some n ∧ n.kind.isPage = true

namespace Ground

variable (hset : Ground t root claimed p editor)
include hset

theorem accepts (h : Stage t root p index d.tree) (hq : q ∈ p.items) (hc : c ∈ q.children)
    (hy : index[q.key]? = some y) {n : Node} (hn : d.tree.node? y = some n) :
    n.kind.acceptsChildren = true := by
  obtain ⟨m, hm, hkind⟩ := h.exists_node hset.fits hq hy
  obtain rfl := Option.some.inj (hm.symm.trans hn)
  rw [Kind.acceptsChildren, ← Kind.isText_eq_of_same hkind, (hset.fits.plain q hq c hc).1]
  rfl

theorem not_fragment (h : Stage t root p index d.tree) (hq : q ∈ p.items) (hc : c ∈ q.children)
    (hx : index[c.key]? = some x) {n : Node} (hn : d.tree.node? x = some n) :
    n.kind.isFragment = false := by
  have hcp := Pairing.mem_items_of_mem_children hc hq
  obtain ⟨m, hm, hkind⟩ := h.exists_node hset.fits hcp hx
  obtain rfl := Option.some.inj (hn.symm.trans hm)
  rw [← Kind.isFragment_eq_of_same hkind]
  exact (hset.fits.plain q hq c hc).2.1

/-- Nodes of the pairing never belong to different documents. -/
theorem document_eq (h : Stage t root p index d.tree) (hq : q ∈ p.items) (hr : r ∈ p.items)
    (hy : index[q.key]? = some y) (hx : index[r.key]? = some x) {a b : NodeId}
    (ha : d.tree.document? y = some a) (hb : d.tree.document? x = some b) : a = b := by
  rcases h.document y (h.new_or_within hset.fits hq hy) with hd | hd
  · rcases h.document x (h.new_or_within hset.fits hr hx) with hd' | hd'
    · exact Option.some.inj (ha.symm.trans (hd.trans (hd'.symm.trans hb)))
    · exact nomatch hd'.symm.trans hb
  · exact nomatch hd.symm.trans ha

theorem exists_page (h : Stage t root p index d.tree) (hq : q ∈ p.items)
    (hy : index[q.key]? = some y) {page : NodeId} (hpage : d.tree.document? y = some page) :
    ∃ n, d.tree.node? page = some n ∧ n.kind.isPage = true := by
  have hroot : t.document? root = some page := by
    rcases h.document y (h.new_or_within hset.fits hq hy) with hd | hd
    · rw [← hd, hpage]
    · exact nomatch hd.symm.trans hpage
  obtain ⟨k, hk, hkind⟩ := hset.document_page page hroot
  obtain ⟨m, hm, hcontent⟩ := h.old hk
  exact ⟨m, hm, (congrArg Kind.isPage (congrArg Content.kind hcontent)).trans hkind⟩

theorem find?_destination (h : Stage t root p index d.tree) (hq : q ∈ p.items)
    (hps : ∀ r ∈ ps, r ∈ p.items) (hy : index[q.key]? = some y) :
    Destination.find? d.tree index ⟨q.key, ps.map Pairing.key⟩ =
      some ⟨y, (values index ps).head?⟩ := by
  have hcontains : ∀ {r z}, r ∈ p.items → index[r.key]? = some z → d.tree.contains z = true := by
    intro r z hr hz
    obtain ⟨m, hm, -⟩ := h.exists_node hset.fits hr hz
    exact Tree.contains_iff.mpr ⟨m, hm⟩
  have hfind : (values index ps).find? d.tree.contains = (values index ps).head? := by
    cases hvalues : values index ps with
    | nil => rfl
    | cons z zs =>
      have hz : z ∈ values index ps := hvalues ▸ List.mem_cons_self
      obtain ⟨r, hr, hrz⟩ := mem_values.mp hz
      rw [List.find?_cons_of_pos (hcontains (hps r hr) hrz), List.head?_cons]
  simp only [Destination.find?, List.filterMap_map, hy, Option.bind_eq_bind, Option.bind_some,
    hcontains hq hy, if_true]
  rw [← hfind]
  rfl

end Ground

namespace Setting

variable (hset : Setting t root claimed p editor)
include hset

theorem ground : Ground t root claimed p editor :=
  ⟨hset.wellFormed, hset.fits, hset.access, hset.document_page⟩

theorem free (h : Scene t root p index d.tree) : editor.Free d.tree :=
  free_of_sharing_eq hset.unsynced hset.access h.sharing

/-- A creation fills one entry of the index, and puts a new node at the end where none of the
following siblings exists. -/
theorem carries_create (h : Scene t root p index d.tree) (hq : q ∈ p.items)
    (hchildren : q.children = rs ++ c :: ps) (hfresh : c.isFresh = true)
    (hy : index[q.key]? = some y) (hnone : index[c.key]? = none) :
    ∃ d' x reference,
      Carries settings editor (Plan.createOf q.key (ps.map Pairing.key) c) index d
        (index.insert c.key x) d' ∧
      Enters p index (index.insert c.key x) d.tree d'.tree q c y x reference ∧
      d.tree.node? x = none ∧ (values index ps = [] → reference = none) := by
  have hc : c ∈ q.children := hchildren ▸ List.mem_append_right _ List.mem_cons_self
  have hps : ∀ r ∈ ps, r ∈ p.items := fun r hr => Pairing.mem_items_of_mem_children
    (hchildren ▸ List.mem_append_right _ (List.mem_cons_of_mem _ hr)) hq
  cases c with
  | same u b => exact nomatch hfresh
  | alike k content b cs => exact nomatch hfresh
  | fresh k content cs =>
    obtain ⟨n, hn, -⟩ := h.exists_node hset.fits hq hy
    obtain ⟨-, hfragment, hpage⟩ := hset.fits.plain q hq _ hc
    obtain ⟨d', reference, hrun, hputs, hreference, m, hm, hcontent⟩ :=
      Apply.run_create settings k hset.access h.sound
        (hset.ground.find?_destination h.toStage hq hps hy) ((hset.free h).unsynced y) hn
        (hset.ground.accepts h.toStage hq hc hy hn) hpage hfragment
        fun page => hset.ground.exists_page h.toStage hq hy
    refine ⟨d', d.nextId, reference, .cons hrun .nil, ?_, Draft.node?_nextId h.sound, ?_⟩
    · refine ⟨hq, hc, hy, hputs, fun k' => getElem?_insert,
        .inr ⟨hnone, rfl, Draft.node?_nextId h.sound, m, hm, ?_⟩⟩
      rw [hcontent]
      rfl
    · intro hvalues
      exact hreference (by rw [hvalues]; rfl)

end Setting

/-- A new node has no children yet, and none of those it is to have exists. -/
theorem Lined.of_created {d d' : Tree} {reference : Option NodeId}
    (henters : Enters p index index' d d' q c y x reference) (hf : p.Fits t root claimed)
    (hbelow : ∀ r ∈ c.children, index[r.key]? = none) : Lined index' d' c := by
  intro w _
  have hvalues : values index' c.children = [] := by
    refine List.filterMap_eq_nil_iff.mpr fun s hs => ?_
    rw [henters.index_ne hf (Pairing.mem_items_of_mem_children hs henters.child_item), hbelow s hs]
    rintro rfl
    exact Pairing.not_mem_items_of_child hs s.mem_items_self
  exact ⟨_, by rw [hvalues, List.append_nil]⟩

/-- A new node is put at the end of a list when all siblings that follow it are still to come. -/
theorem Lined.of_created_child {d d' : Tree} (hlined : Lined index d q)
    (henters : Enters p index index' d d' q c y x none) (h : Scene t root p index d)
    (hf : p.Fits t root claimed) (hchildren : q.children = rs ++ c :: ps)
    (hx : d.node? x = none) (hrest : ∀ r ∈ c :: ps, index[r.key]? = none) :
    Lined index' d' q := by
  intro w hw
  have hq := henters.item
  obtain rfl : w = y := by
    rw [henters.grows henters.parent] at hw
    exact (Option.some.inj hw).symm
  obtain ⟨xs, hxs⟩ := hlined w henters.parent
  have hnodup := hf.nodup_children hq
  rw [hchildren] at hnodup
  have hkept : ∀ {ss : List Pairing}, (∀ s ∈ ss, s ∈ q.children ∧ s ≠ c) →
      values index' ss = values index ss := fun hss =>
    List.filterMap_congr fun s hs =>
      henters.index_ne hf (Pairing.mem_items_of_mem_children (hss s hs).1 hq) (hss s hs).2
  -- The siblings before it are where they were, and those after it do not exist yet.
  have hrs : values index' rs = values index rs := hkept fun s hs => by
    refine ⟨hchildren ▸ List.mem_append_left _ hs, ?_⟩
    rintro rfl
    exact (List.nodup_append'.mp hnodup).2.2 hs List.mem_cons_self
  have hps' : values index' ps = values index ps := hkept fun s hs => by
    refine ⟨hchildren ▸ List.mem_append_right _ (List.mem_cons_of_mem _ hs), ?_⟩
    rintro rfl
    exact (List.nodup_cons.mp (List.nodup_append'.mp hnodup).2.1).1 hs
  have hps : values index ps = [] :=
    List.filterMap_eq_nil_iff.mpr fun s hs => hrest s (List.mem_cons_of_mem _ hs)
  have hbefore : values index q.children = values index rs := by
    rw [hchildren, values_append, values_cons_of_none (hrest c List.mem_cons_self), hps,
      List.append_nil]
  have hafter : values index' q.children = values index rs ++ [x] := by
    rw [hchildren, values_append, hrs, values_cons_of_some henters.index_self, hps', hps]
  have hxw : x ∉ d.children w := by
    rw [h.sound.mem_children_iff]
    intro hunder
    obtain ⟨n, hn, -⟩ := hunder.exists_node
    exact Option.some_ne_none _ (hn.symm.trans hx)
  refine ⟨xs, ?_⟩
  rw [henters.puts.at_end rfl, List.erase_of_not_mem hxw, hxs, hbefore, hafter, List.append_assoc]

/-- Children that stand in order from the beginning do so after a creation. -/
theorem Lined.of_creation {d d' : Tree} {reference : Option NodeId} (hlined : Lined index d r)
    (henters : Enters p index index' d d' q c y x reference) (h : Scene t root p index d)
    (hf : p.Fits t root claimed) (ht : t.WellFormed) (hchildren : q.children = rs ++ c :: ps)
    (hfresh : c.isFresh = true) (hx : d.node? x = none)
    (hend : values index ps = [] → reference = none) (hbelow : Missing index c.children)
    (hrest : Missing index (c :: ps)) (hr : r ∈ p.items)
    (horder : Plan.inOrderAt claimed r = true) : Lined index' d' r := by
  by_cases hrc : r = c
  · subst hrc
    exact .of_created henters hf fun s hs =>
      hbelow s hs (Plan.isFresh_of_inOrderAt horder (.inl hfresh) hs)
  · by_cases hrq : r = q
    · -- Where a child is new and none has to move, all of them are new.
      subst hrq
      have hnone : ∀ s ∈ c :: ps, index[s.key]? = none := fun s hs =>
        hrest s hs (Plan.isFresh_of_inOrderAt horder (.inr ⟨c, henters.child, hfresh⟩)
          (hchildren ▸ List.mem_append_right _ hs))
      obtain rfl := hend (List.filterMap_eq_nil_iff.mpr fun s hs =>
        hnone s (List.mem_cons_of_mem _ hs))
      exact hlined.of_created_child henters h hf hchildren hx hnone
    · exact hlined.of_enters henters h (henters.scene h ht hf) hf hr hrq
        (henters.index_ne hf hr hrc)

/-- Children that stand in order from the beginning do so now. -/
def InOrder (claimed : Pairing.Claimed) (p : Pairing) (index : KeyIndex) (d : Tree) : Prop :=
  ∀ q ∈ p.items, Plan.inOrderAt claimed q = true → Lined index d q

/-- Operations are carried out after which several nodes of the pairing are in the index. -/
structure Fills (settings : Settings) (editor : Editor) (t : Tree) (root : NodeId)
    (claimed : Pairing.Claimed) (p : Pairing) (os : List Operation) (rs : List Pairing)
    (index : KeyIndex) (d : Draft) (index' : KeyIndex) (d' : Draft) : Prop where
  carries : Carries settings editor os index d index' d'
  scene : Scene t root p index' d'.tree
  inOrder : InOrder claimed p index' d'.tree
  filled : ∀ r ∈ rs, ∃ x, index'[r.key]? = some x
  grows : ∀ {k : BranchKey} {x}, index[k]? = some x → index'[k]? = some x
  kept : ∀ {k : BranchKey}, k ∉ rs.map Pairing.key → index'[k]? = index[k]?

variable {settings}

theorem Fills.append {rs' : List Pairing}
    (h : Fills settings editor t root claimed p os rs index d index' d')
    (h' : Fills settings editor t root claimed p os' rs' index' d' index'' d'') :
    Fills settings editor t root claimed p (os ++ os') (rs ++ rs') index d index'' d'' where
  carries := h.carries.append h'.carries
  scene := h'.scene
  inOrder := h'.inOrder
  filled r hr := by
    rcases List.mem_append.mp hr with hr | hr
    · exact (h.filled r hr).imp fun x hx => h'.grows hx
    · exact h'.filled r hr
  grows hx := h'.grows (h.grows hx)
  kept hk := by
    rw [List.map_append, List.mem_append, not_or] at hk
    rw [h'.kept hk.2, h.kept hk.1]

theorem Fills.missing (h : Fills settings editor t root claimed p os rs index d index' d')
    (hf : p.Fits t root claimed) (hrs : ∀ r ∈ rs, r ∈ p.items) (hps : ∀ r ∈ ps, r ∈ p.items)
    (hdisjoint : rs.Disjoint ps) (hmissing : Missing index ps) : Missing index' ps := by
  intro r hr hfresh
  rw [h.kept, hmissing r hr hfresh]
  intro hkey
  obtain ⟨s, hs, heq⟩ := List.mem_map.mp hkey
  obtain rfl := hf.key_injective (hrs s hs) (hps r hr) heq
  exact hdisjoint hs hr

namespace Setting

variable (settings) (hset : Setting t root claimed p editor)
include hset

/-- The creation of a node, or nothing where the node exists. -/
theorem fills_createOf (h : Scene t root p index d.tree) (horder : InOrder claimed p index d.tree)
    (hq : q ∈ p.items) (hchildren : q.children = rs ++ c :: ps) (hy : index[q.key]? = some y)
    (hbelow : Missing index c.children) (hrest : Missing index (c :: ps)) :
    ∃ index' d', Fills settings editor t root claimed p
      (Plan.createOf q.key (ps.map Pairing.key) c) [c] index d index' d' := by
  have hcp := Pairing.mem_items_of_mem_children
    (hchildren ▸ List.mem_append_right _ List.mem_cons_self) hq
  cases hfresh : c.isFresh with
  | true =>
    have hnone := hrest c List.mem_cons_self hfresh
    obtain ⟨d', x, reference, hcarries, henters, hx, hend⟩ :=
      hset.carries_create settings h hq hchildren hfresh hy hnone
    refine ⟨_, d', hcarries, henters.scene h hset.wellFormed hset.fits, fun r hr hro => ?_, ?_,
      henters.grows, ?_⟩
    · exact (horder r hr hro).of_creation henters h hset.fits hset.wellFormed hchildren hfresh hx
        hend hbelow hrest hr hro
    · intro r hr
      obtain rfl := List.mem_singleton.mp hr
      exact ⟨x, henters.index_self⟩
    · intro k hk
      rw [henters.index_eq, if_neg fun heq => hk (List.mem_singleton.mpr heq)]
  | false =>
    have hcreate : Plan.createOf q.key (ps.map Pairing.key) c = [] := by
      cases c with
      | same u b => rfl
      | alike k content b cs => rfl
      | fresh k content cs => exact nomatch hfresh
    rw [hcreate]
    refine ⟨index, d, .nil, h, horder, fun r hr => ?_, fun hx => hx, fun _ => rfl⟩
    obtain rfl := List.mem_singleton.mp hr
    obtain ⟨x, hx⟩ : ∃ x, r.partner? = some x := by
      rw [← Option.ne_none_iff_exists', ne_eq, Pairing.partner?_eq_none_iff, hfresh]
      exact Bool.false_ne_true
    exact ⟨x, h.partner r hcp x hx⟩

/-- The creations of several siblings, when the creations below each of them fill the index. -/
theorem fills_createsBelow (hq : q ∈ p.items)
    (hcreates : ∀ c ∈ q.children, c ∈ p.items → ∀ (index : KeyIndex) (d : Draft),
      Scene t root p index d.tree → InOrder claimed p index d.tree →
      (∃ y, index[c.key]? = some y) → Missing index (Pairing.allItems c.children) →
      ∃ index' d', Fills settings editor t root claimed p (Plan.creates c)
        (Pairing.allItems c.children) index d index' d')
    (ps : List Pairing) : ∀ rs, q.children = rs ++ ps → ∀ (index : KeyIndex) (d : Draft),
    Scene t root p index d.tree → InOrder claimed p index d.tree →
    (∃ y, index[q.key]? = some y) → Missing index (Pairing.allItems ps) →
    ∃ index' d', Fills settings editor t root claimed p (Plan.creates.createsBelow q.key ps)
      (Pairing.allItems ps) index d index' d' := by
  induction ps with
  | nil =>
    intro rs _ index d h horder _ _
    exact ⟨index, d, .nil, h, horder, fun _ hr => (nomatch hr), fun hx => hx, fun _ => rfl⟩
  | cons c ps ih =>
    intro rs hchildren index d h horder hy hmissing
    have hc : c ∈ q.children := hchildren ▸ List.mem_append_right _ List.mem_cons_self
    have hcp := Pairing.mem_items_of_mem_children hc hq
    have hitems : Pairing.allItems (c :: ps) =
        [c] ++ (Pairing.allItems c.children ++ Pairing.allItems ps) := by
      rw [Pairing.allItems_cons, Pairing.items_eq]
      rfl
    have hmem : ∀ r ∈ Pairing.allItems (c :: ps), r ∈ p.items := by
      intro r hr
      refine Pairing.mem_items_trans ?_ hq
      rw [Pairing.items_eq, hchildren, Pairing.allItems_append]
      exact List.mem_cons_of_mem _ (List.mem_append_right _ hr)
    have hnodup : (Pairing.allItems (c :: ps)).Nodup := by
      have := hset.fits.nodup_items.sublist (Pairing.sublist_items hq)
      rw [Pairing.items_eq, hchildren, Pairing.allItems_append] at this
      exact (List.nodup_append'.mp (List.nodup_cons.mp this).2).2.1
    rw [hitems] at hmem hnodup hmissing
    obtain ⟨-, hnodup', hself⟩ := List.nodup_append'.mp hnodup
    obtain ⟨-, -, hdisjoint⟩ := List.nodup_append'.mp hnodup'
    simp only [List.forall_mem_append] at hmem
    obtain ⟨-, hbelow, hafter⟩ := hmem
    obtain ⟨y, hy⟩ := hy
    -- First the node itself, then what is below it, and then the siblings that follow.
    obtain ⟨index₁, d₁, h₁⟩ := hset.fills_createOf settings h horder hq hchildren hy
      (fun r hr => hmissing r (List.mem_append_right _ (List.mem_append_left _
        (Pairing.mem_allItems.mpr ⟨r, hr, r.mem_items_self⟩))))
      (fun r hr => hmissing r (hitems ▸ Pairing.mem_allItems.mpr ⟨r, hr, r.mem_items_self⟩))
    have hmissing₁ := h₁.missing hset.fits (by simpa using hcp)
      (List.forall_mem_append.mpr ⟨hbelow, hafter⟩) hself
      fun r hr => hmissing r (List.mem_append_right _ hr)
    obtain ⟨index₂, d₂, h₂⟩ := hcreates c hc hcp index₁ d₁ h₁.scene h₁.inOrder
      (h₁.filled c (List.mem_singleton_self c)) fun r hr =>
        hmissing₁ r (List.mem_append_left _ hr)
    have hmissing₂ := h₂.missing hset.fits hbelow hafter hdisjoint fun r hr =>
      hmissing₁ r (List.mem_append_right _ hr)
    obtain ⟨index₃, d₃, h₃⟩ := ih (rs ++ [c]) (by rw [hchildren, List.append_assoc]; rfl)
      index₂ d₂ h₂.scene h₂.inOrder ⟨y, h₂.grows (h₁.grows hy)⟩ hmissing₂
    refine ⟨index₃, d₃, ?_⟩
    rw [Plan.createsBelow_cons, hitems, List.append_assoc]
    exact h₁.append (h₂.append h₃)

/-- The creations below a node fill the index below it. -/
theorem fills_creates (q : Pairing) : q ∈ p.items → ∀ (index : KeyIndex) (d : Draft),
    Scene t root p index d.tree → InOrder claimed p index d.tree →
    (∃ y, index[q.key]? = some y) → Missing index (Pairing.allItems q.children) →
    ∃ index' d', Fills settings editor t root claimed p (Plan.creates q)
      (Pairing.allItems q.children) index d index' d' := by
  induction q with
  | node q ih =>
    intro hq
    rw [Plan.creates_eq]
    exact hset.fills_createsBelow settings hq ih q.children [] rfl

/-! ### Moves -/

section Moves

variable {settings} (hattempts : 1 ≤ settings.maxAscent)
  (hall : ∀ r ∈ p.items, ∃ x, index[r.key]? = some x)
include hattempts

/-- A move puts a child before the sibling that follows it. -/
theorem carries_move {xs : List NodeId} (h : Scene t root p index d.tree) (hq : q ∈ p.items)
    (hchildren : q.children = rs ++ c :: ps) (hy : index[q.key]? = some y)
    (hx : index[c.key]? = some x) (hlist : d.tree.children y = xs ++ values index ps) :
    ∃ d', Carries settings editor [.move ⟨q.key, ps.map Pairing.key⟩ c.key c.partner?]
        index d index d' ∧
      Scene t root p index d'.tree ∧ (∃ xs, d'.tree.children y = xs ++ values index (c :: ps)) ∧
      ∀ r ∈ p.items, r ≠ q → Lined index d.tree r → Lined index d'.tree r := by
  have hc : c ∈ q.children := hchildren ▸ List.mem_append_right _ List.mem_cons_self
  have hcp := Pairing.mem_items_of_mem_children hc hq
  have hps : ∀ r ∈ ps, r ∈ p.items := fun r hr => Pairing.mem_items_of_mem_children
    (hchildren ▸ List.mem_append_right _ (List.mem_cons_of_mem _ hr)) hq
  have hnodup := hset.fits.nodup_children hq
  rw [hchildren] at hnodup
  have hcps : c ∉ ps := (List.nodup_cons.mp (List.nodup_append'.mp hnodup).2.1).1
  have hxps : x ∉ values index ps := by
    rw [mem_values]
    rintro ⟨r, hr, hrx⟩
    exact hcps (h.injective c hcp r (hps r hr) x hx hrx ▸ hr)
  have hid : c.partner?.or index[c.key]? = some x := by
    cases hpartner : c.partner? with
    | none => exact hx
    | some z => rw [Option.some_or, ← hx, h.partner c hcp z hpartner]
  have hbefore : ∀ f, (values index ps).head? = some f → d.tree.Under f y ∧ f ≠ x := by
    intro f hf
    have hmem := List.mem_of_mem_head? hf
    refine ⟨?_, fun heq => hxps (heq ▸ hmem)⟩
    rw [← h.sound.mem_children_iff, hlist]
    exact List.mem_append_right _ hmem
  obtain ⟨outcome, d', hrun, hputs⟩ := Apply.run_move settings c.key (hset.free h) h.sound
    (hset.ground.find?_destination h.toStage hq hps hy) hid
    (h.movable hset.fits hset.wellFormed hq hc hy hx)
    (fun n hn => hset.ground.accepts h.toStage hq hc hy hn)
    (fun n hn => hset.ground.not_fragment h.toStage hq hc hx hn)
    (fun a b => hset.ground.document_eq h.toStage hq hcp hy hx) hbefore hattempts
  have hindex : ∀ k, index[k]? = if k = c.key then some x else index[k]? := by
    intro k
    split
    · next hk => rw [hk, hx]
    · rfl
  have henters : Enters p index index d.tree d'.tree q c y x _ :=
    ⟨hq, hc, hy, hputs, hindex, .inl hx⟩
  have h' := henters.scene h hset.wellFormed hset.fits
  refine ⟨d', .cons hrun .nil, h', ?_, fun r hr hne hlined => ?_⟩
  · rw [values_cons_of_some hx]
    exact hputs.ends h.sound.toWellFormed hlist hxps rfl
  · exact hlined.of_enters henters h h' hset.fits hr hne rfl

include hall

/-- The moves of several siblings, the last first, bring them to the end of the list in order. -/
theorem carries_movesOf (hq : q ∈ p.items) (hy : index[q.key]? = some y) (ps : List Pairing) :
    ∀ rs, q.children = rs ++ ps → ∀ d : Draft, Scene t root p index d.tree →
    ∃ d', Carries settings editor (Plan.movesOf q.key ps) index d index d' ∧
      Scene t root p index d'.tree ∧ (∃ xs, d'.tree.children y = xs ++ values index ps) ∧
      ∀ r ∈ p.items, r ≠ q → Lined index d.tree r → Lined index d'.tree r := by
  induction ps with
  | nil => exact fun rs _ d h => ⟨d, .nil, h, ⟨_, (List.append_nil _).symm⟩, fun _ _ _ h => h⟩
  | cons c ps ih =>
    intro rs hchildren d h
    have hc : c ∈ q.children := hchildren ▸ List.mem_append_right _ List.mem_cons_self
    obtain ⟨x, hx⟩ := hall c (Pairing.mem_items_of_mem_children hc hq)
    -- The siblings that follow are at the end already when the child is put before them.
    obtain ⟨d₁, hcarries, h₁, ⟨xs, hlist⟩, hkept⟩ :=
      ih (rs ++ [c]) (by rw [hchildren, List.append_assoc]; rfl) d h
    obtain ⟨d₂, hcarries', h₂, hlist', hkept'⟩ :=
      hset.carries_move hattempts h₁ hq hchildren hy hx hlist
    exact ⟨d₂, hcarries.append hcarries', h₂, hlist', fun r hr hne hlined =>
      hkept' r hr hne (hkept r hr hne hlined)⟩

/-- The moves below one node bring its children to the end of its list in order. -/
theorem carries_movesAt (h : Scene t root p index d.tree) (horder : InOrder claimed p index d.tree)
    (hq : q ∈ p.items) :
    ∃ d', Carries settings editor (Plan.movesAt claimed q) index d index d' ∧
      Scene t root p index d'.tree ∧ Lined index d'.tree q ∧
      ∀ r ∈ p.items, Lined index d.tree r → Lined index d'.tree r := by
  unfold Plan.movesAt
  split
  · -- Where nothing has to move, the children have been in order all the time.
    next hin => exact ⟨d, .nil, h, horder q hq hin, fun _ _ h => h⟩
  · obtain ⟨y, hy⟩ := hall q hq
    obtain ⟨d', hcarries, h', hlist, hkept⟩ :=
      hset.carries_movesOf hattempts hall hq hy q.children [] rfl d h
    have hlined : Lined index d'.tree q := by
      intro w hw
      obtain rfl := Option.some.inj (hy.symm.trans hw)
      exact hlist
    refine ⟨d', hcarries, h', hlined, fun r hr hr' => ?_⟩
    by_cases hrq : r = q
    · exact hrq ▸ hlined
    · exact hkept r hr hrq hr'

/-- The moves of a plan bring the children of every node to the end of its list in order. -/
theorem carries_moves (h : Scene t root p index d.tree) (horder : InOrder claimed p index d.tree) :
    ∃ d', Carries settings editor (p.items.flatMap (Plan.movesAt claimed)) index d index d' ∧
      Scene t root p index d'.tree ∧ ∀ q ∈ p.items, Lined index d'.tree q := by
  have hstep : ∀ q ∈ p.items, ∀ d : Draft,
      Scene t root p index d.tree ∧ InOrder claimed p index d.tree →
      ∃ d', Carries settings editor (Plan.movesAt claimed q) index d index d' ∧
        (Scene t root p index d'.tree ∧ InOrder claimed p index d'.tree) ∧
        Lined index d'.tree q ∧ ∀ r ∈ p.items, Lined index d.tree r → Lined index d'.tree r := by
    rintro q hq d ⟨h, horder⟩
    obtain ⟨d', hcarries, h', hlined, hkept⟩ := hset.carries_movesAt hattempts hall h horder hq
    exact ⟨d', hcarries, ⟨h', fun r hr hin => hkept r hr (horder r hr hin)⟩, hlined, hkept⟩
  obtain ⟨d', hcarries, ⟨h', -⟩, hlined⟩ := Carries.flatMap hstep ⟨h, horder⟩
  exact ⟨d', hcarries, h', hlined⟩

end Moves

end Setting

end ContentTree.Merge
