import ContentTree.Json.Record
import ContentTree.Proofs.Json.Document
import ContentTree.Proofs.Pairs

/-!
# Records read back

Absent fields of a record are left out where it is written. Each way of reading a field makes up for
that, so that the fields are found again as they were.

## Main definitions

* `present`: the fields of a record that are written.

## Main results

* `lookup_present`: a field is found again, or is missing where it was absent.
* `record?_objectOf`, `tagged?_objectOf`: written records and choices have their fields.
* `required?_present`, `optional?_present`, `orElse?_unless`: fields are read back.
* `list?_map`, `map?_ofMap`: lists and maps are read back.
* `plain_objectOf`, `depth_objectOf_le`: what its fields make of a written record.
-/

namespace ContentTree.Json

variable {α : Type} {fields : List (String × Option Json)} {names : List String} {name : String}

/-- The fields of a record that are written. -/
def present (fields : List (String × Option Json)) : Fields :=
  fields.filterMap fun field => field.2.map (field.1, ·)

theorem objectOf_eq (fields : List (String × Option Json)) :
    objectOf fields = .object (present fields) :=
  rfl

theorem present_cons (name : String) (o : Option Json) (fields : List (String × Option Json)) :
    present ((name, o) :: fields) = (o.map (name, ·)).toList ++ present fields := by
  cases o <;> rfl

theorem present_append (fields more : List (String × Option Json)) :
    present (fields ++ more) = present fields ++ present more :=
  List.filterMap_append

theorem present_eq (fields : List (String × Option Json)) :
    present fields = pairs (fun field => some field.1) Prod.snd fields :=
  rfl

theorem map_fst_present_sublist (fields : List (String × Option Json)) :
    ((present fields).map Prod.fst).Sublist (fields.map Prod.fst) := by
  have hsublist := map_fst_pairs_sublist (fun field => some field.1) Prod.snd fields
  rwa [List.filterMap_eq_map'] at hsublist

theorem mem_of_mem_present {field : String × Json} (h : field ∈ present fields) :
    (field.1, some field.2) ∈ fields := by
  obtain ⟨source, hsource, heq⟩ := List.mem_filterMap.mp h
  obtain ⟨j, hj, rfl⟩ := Option.map_eq_some_iff.mp heq
  exact hj ▸ hsource

theorem fst_mem_of_mem_present {field : String × Json} (h : field ∈ present fields) :
    field.1 ∈ fields.map Prod.fst :=
  List.mem_map_of_mem (mem_of_mem_present h)

/-- A field is found again, and is missing where it was absent. -/
theorem lookup_present (hnodup : (fields.map Prod.fst).Nodup) (name : String) :
    (present fields).lookup name = (fields.lookup name).join := by
  rw [present_eq]
  cases hlookup : fields.lookup name with
  | none =>
    refine lookup_pairs_of_notMem fun hmem => ?_
    rw [List.filterMap_eq_map'] at hmem
    obtain ⟨field, hfield, rfl⟩ := List.mem_map.mp hmem
    exact bne_iff_ne.mp (List.lookup_eq_none_iff.mp hlookup field hfield) rfl
  | some o =>
    obtain ⟨before, after, rfl, -⟩ := List.lookup_eq_some_iff.mp hlookup
    rw [← List.filterMap_eq_map'] at hnodup
    exact lookup_pairs hnodup (List.mem_append_right before List.mem_cons_self) rfl

theorem filter_present (hnames : fields.map Prod.fst ⊆ names) :
    (present fields).filter (fun field => names.contains field.1) = present fields :=
  List.filter_eq_self.mpr fun _ hfield =>
    List.contains_iff_mem.mpr (hnames (fst_mem_of_mem_present hfield))

theorem distinctNames_present (hnodup : (fields.map Prod.fst).Nodup) :
    distinctNames (present fields) = true :=
  decide_eq_true (hnodup.sublist (map_fst_present_sublist fields))

/-- The fields of a written record, where it has no others and repeats none. -/
theorem record?_objectOf (hnodup : (fields.map Prod.fst).Nodup)
    (hnames : fields.map Prod.fst ⊆ names) :
    record? names (objectOf fields) = some (present fields) := by
  rw [objectOf_eq, record?, filter_present hnames]
  exact if_pos (distinctNames_present hnodup)

/-- A written choice names its variant, and has the fields of the variant. -/
theorem tagged?_object {tag word : String} {rest : Fields} (spelling : Spelling)
    (words : List String) (htag : tag ∉ rest.map Prod.fst)
    (hreadable : (object ((tag, .string word) :: rest)).isReadable = true) :
    tagged? spelling words tag (.object ((tag, .string word) :: rest)) =
      some (word, .object rest) := by
  have hother : ∀ field ∈ rest, field.1 ≠ tag :=
    fun field hfield heq => htag (heq ▸ List.mem_map_of_mem hfield)
  have hnone : rest.filter (fun field => decide (field.1 = tag)) = [] :=
    List.filter_eq_nil_iff.mpr fun field hfield => by simpa using hother field hfield
  have hvariant : ((tag, Json.string word) :: rest).filter (fun field => decide (field.1 = tag)) =
      [(tag, .string word)] := by
    simp [hnone]
  have hrest : ((tag, Json.string word) :: rest).filter (fun field => decide (field.1 ≠ tag)) =
      rest := by
    rw [List.filter_cons_of_neg (by simp), List.filter_eq_self.mpr]
    exact fun field hfield => decide_eq_true (hother field hfield)
  unfold tagged?
  rw [if_pos hreadable]
  simp only [hvariant, hrest, variant?, Option.map_some]

theorem tagged?_objectOf {tag word : String} (spelling : Spelling) (words : List String)
    (htag : tag ∉ fields.map Prod.fst)
    (hreadable : (objectOf ((tag, some (.string word)) :: fields)).isReadable = true) :
    tagged? spelling words tag (objectOf ((tag, some (.string word)) :: fields)) =
      some (word, objectOf fields) :=
  tagged?_object spelling words
    (fun hmem => htag ((map_fst_present_sublist fields).subset hmem)) hreadable

/-! ### Fields -/

theorem required?_present {read : Json → Option α} {a : α} {j : Json}
    (hnodup : (fields.map Prod.fst).Nodup) (hlookup : fields.lookup name = some (some j))
    (hread : read j = some a) : required? read (present fields) name = some a := by
  rw [required?, lookup_present hnodup, hlookup]
  exact hread

/-- A field that may be missing, written only where there is something to write. -/
theorem optional?_present {read : Json → Option α} {write : α → Json} {o : Option α}
    (hnodup : (fields.map Prod.fst).Nodup) (hlookup : fields.lookup name = some (o.map write))
    (hread : ∀ a ∈ o, read (write a) = some a) (hnull : read .null = none) :
    optional? read (present fields) name = some o := by
  rw [optional?, lookup_present hnodup, hlookup]
  cases o with
  | none => rfl
  | some a =>
    -- What is written is not taken for a missing field, as that would not be read back.
    have ha := hread a rfl
    cases hj : write a with
    | null => rw [hj, hnull] at ha; contradiction
    | _ => rw [hj] at ha; simp [hj, ha]

theorem orElse?_present {read : Json → Option α} {default a : α} {j : Json}
    (hnodup : (fields.map Prod.fst).Nodup) (hlookup : fields.lookup name = some (some j))
    (hread : read j = some a) : orElse? default read (present fields) name = some a := by
  rw [orElse?, lookup_present hnodup, hlookup]
  exact hread

/-- A field left out only where it has the value for that case. -/
theorem orElse?_unless {read : Json → Option α} {default a : α} {j : Json} {c : Prop} [Decidable c]
    (hnodup : (fields.map Prod.fst).Nodup)
    (hlookup : fields.lookup name = some (if c then none else some j))
    (hdefault : c → a = default) (hread : read j = some a) :
    orElse? default read (present fields) name = some a := by
  rw [orElse?, lookup_present hnodup, hlookup]
  by_cases hc : c
  · rw [if_pos hc, hdefault hc]
    rfl
  · rw [if_neg hc]
    exact hread

/-! ### Lists and maps -/

theorem list?_map {read : Json → Option α} {write : α → Json} {as : List α}
    (hread : ∀ a ∈ as, read (write a) = some a) : list? read (.array (as.map write)) = some as := by
  rw [list?]
  induction as with
  | nil => rfl
  | cons a as ih =>
    rw [List.forall_mem_cons] at hread
    rw [List.map_cons, List.mapM_cons, hread.1, ih hread.2]
    rfl

theorem foldlM_insert {read : Json → Option α} {write : α → Json}
    (h : ∀ a, read (write a) = some a) (entries : List (String × α))
    (m : Std.ExtTreeMap String α) :
    (entries.map fun entry => (entry.1, write entry.2)).foldlM
        (fun m field => (read field.2).map (m.insert field.1 ·)) m =
      some (m.insertMany entries) := by
  -- Every entry is read back, so nothing stops the fold.
  induction entries generalizing m with
  | nil => exact congrArg some Std.ExtTreeMap.insertMany_nil.symm
  | cons entry entries ih =>
    rw [List.map_cons, List.foldlM_cons, h, Std.ExtTreeMap.insertMany_cons]
    exact ih _

/-- A map is that of its own entries. -/
theorem insertMany_toList (m : Std.ExtTreeMap String α) :
    (∅ : Std.ExtTreeMap String α).insertMany m.toList = m := by
  refine Std.ExtTreeMap.ext_getElem? fun key => ?_
  cases hkey : m[key]? with
  | some a =>
    exact Std.ExtTreeMap.getElem?_insertMany_list_of_mem Std.ReflCmp.compare_self
      Std.ExtTreeMap.distinct_keys_toList
      (Std.ExtTreeMap.mem_toList_iff_getElem?_eq_some.mpr hkey)
  | none =>
    -- A key that the map does not have is not among its entries.
    rw [Std.ExtTreeMap.getElem?_insertMany_list_of_contains_eq_false]
    · exact Std.ExtTreeMap.getElem?_empty
    · rw [Std.ExtTreeMap.map_fst_toList_eq_keys, Bool.eq_false_iff]
      intro hmem
      rw [List.contains_iff_mem, Std.ExtTreeMap.mem_keys] at hmem
      exact absurd hkey (Std.ExtTreeMap.getElem?_eq_some_getElem hmem ▸ Option.some_ne_none _)

/-- A map is read back. -/
theorem map?_ofMap {read : Json → Option α} {write : α → Json} (h : ∀ a, read (write a) = some a)
    (m : Std.ExtTreeMap String α) : map? read (ofMap write m) = some m := by
  rw [ofMap, map?, foldlM_insert h, insertMany_toList]

/-! ### Plain documents -/

theorem listIsReadable_eq (items : List Json) :
    isReadable.listIsReadable items = items.all isReadable := by
  induction items with
  | nil => rfl
  | cons item items ih => rw [isReadable.listIsReadable, ih, List.all_cons]

theorem fieldsAreReadable_eq (fields : List (String × Json)) :
    isReadable.fieldsAreReadable fields = fields.all fun field => field.2.isReadable := by
  induction fields with
  | nil => rfl
  | cons field fields ih => rw [isReadable.fieldsAreReadable, ih, List.all_cons]

theorem Plain.isReadable {j : Json} (h : Plain j) : j.isReadable = true := by
  induction h with
  | array _ ih => rw [Json.isReadable, listIsReadable_eq, List.all_eq_true]; exact ih
  | object _ ih => rw [Json.isReadable, fieldsAreReadable_eq, List.all_eq_true]; exact ih
  | _ => rfl

theorem plain_objectOf (h : ∀ field ∈ fields, ∀ j, field.2 = some j → Plain j) :
    Plain (objectOf fields) :=
  .object fun field hfield => h _ (mem_of_mem_present hfield) field.2 rfl

theorem plain_map {write : α → Json} {as : List α} (h : ∀ a ∈ as, Plain (write a)) :
    Plain (.array (as.map write)) :=
  .array fun _ hitem => by
    obtain ⟨a, ha, rfl⟩ := List.mem_map.mp hitem
    exact h a ha

theorem plain_ofMap {write : α → Json} (h : ∀ a, Plain (write a)) (m : Std.ExtTreeMap String α) :
    Plain (ofMap write m) :=
  .object fun _ hfield => by
    obtain ⟨entry, -, rfl⟩ := List.mem_map.mp hfield
    exact h entry.2

/-! ### Nesting -/

@[simp] theorem depth_null : null.depth = 0 := rfl

@[simp] theorem depth_bool (b : Bool) : (bool b).depth = 0 := rfl

@[simp] theorem depth_nat (n : Nat) : (nat n).depth = 0 := rfl

@[simp] theorem depth_string (s : String) : (string s).depth = 0 := rfl

theorem listDepth_le {n : Nat} {items : List Json} (h : ∀ item ∈ items, item.depth ≤ n) :
    depth.listDepth items ≤ n := by
  induction items with
  | nil => exact Nat.zero_le n
  | cons item items ih =>
    rw [List.forall_mem_cons] at h
    exact Nat.max_le.mpr ⟨h.1, ih h.2⟩

theorem fieldDepth_le {n : Nat} {fields : Fields} (h : ∀ field ∈ fields, field.2.depth ≤ n) :
    depth.fieldDepth fields ≤ n := by
  induction fields with
  | nil => exact Nat.zero_le n
  | cons field fields ih =>
    rw [List.forall_mem_cons] at h
    exact Nat.max_le.mpr ⟨h.1, ih h.2⟩

theorem depth_map_le {n : Nat} {write : α → Json} {as : List α}
    (h : ∀ a ∈ as, (write a).depth ≤ n) : (array (as.map write)).depth ≤ n + 1 := by
  rw [depth]
  refine Nat.succ_le_succ (listDepth_le fun item hitem => ?_)
  obtain ⟨a, ha, rfl⟩ := List.mem_map.mp hitem
  exact h a ha

theorem depth_object_le {n : Nat} {fields : Fields} (h : ∀ field ∈ fields, field.2.depth ≤ n) :
    (object fields).depth ≤ n + 1 := by
  rw [depth]
  exact Nat.succ_le_succ (fieldDepth_le h)

theorem depth_ofMap_le {n : Nat} {write : α → Json} (h : ∀ a, (write a).depth ≤ n)
    (m : Std.ExtTreeMap String α) : (ofMap write m).depth ≤ n + 1 := by
  refine depth_object_le fun field hfield => ?_
  obtain ⟨entry, -, rfl⟩ := List.mem_map.mp hfield
  exact h entry.2

theorem depth_objectOf_le {n : Nat} (h : ∀ field ∈ fields, ∀ j, field.2 = some j → j.depth ≤ n) :
    (objectOf fields).depth ≤ n + 1 :=
  depth_object_le fun field hfield => h _ (mem_of_mem_present hfield) field.2 rfl

end ContentTree.Json
