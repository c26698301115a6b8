import ContentTree.Snapshot.Json
import ContentTree.Proofs.Node.Json

/-!
# Snapshots read back

The fields of a kind stand among those of the snapshot itself. None of them has a name that the
snapshot uses, so the two sorts of fields are told apart again.

## Main definitions

* `Snapshot.Fits`: all identifiers and versions fit into 64 bits.

## Main results

* `Snapshot.ofJson?_toJson`: a snapshot is read back from its document.
* `Snapshot.plain_toJson`: its document is read back from its text.
* `Snapshot.read?_pretty`: a snapshot that is not nested too deeply is read back from its text.
-/

namespace ContentTree

open Json

namespace Snapshot

variable {s : Snapshot}

/-- All identifiers and versions fit into 64 bits. -/
inductive Fits : Snapshot → Prop
  | mk {id component : Option NodeId} {content : Content} {children : List Snapshot}
    (hid : ∀ i ∈ id, i < wholeBound) (hcontent : content.Fits)
    (hcomponent : ∀ i ∈ component, i < wholeBound) (hchildren : ∀ c ∈ children, Fits c) :
    Fits (.mk id content component children)

theorem fits_mk_iff {id component : Option NodeId} {content : Content} {children : List Snapshot} :
    (mk id content component children).Fits ↔ (∀ i ∈ id, i < wholeBound) ∧ content.Fits ∧
      (∀ i ∈ component, i < wholeBound) ∧ ∀ c ∈ children, c.Fits :=
  ⟨fun ⟨hid, hcontent, hcomponent, hchildren⟩ => ⟨hid, hcontent, hcomponent, hchildren⟩,
    fun ⟨hid, hcontent, hcomponent, hchildren⟩ => .mk hid hcontent hcomponent hchildren⟩

/-! ### Fields -/

theorem listToJson_eq (ss : List Snapshot) : toJson.listToJson ss = ss.map toJson := by
  induction ss with
  | nil => rfl
  | cons s ss ih => rw [toJson.listToJson, ih, List.map_cons]

/-- The fields that stand after those of the kind. -/
def laterFields (s : Snapshot) : List (String × Option Json) :=
  [("properties",
      if s.content.properties = {} then none else some s.content.properties.toJson),
    ("link", s.content.link.map Link.toJson),
    ("sharedComponent", s.component?.map nat),
    ("children", if s.children.isEmpty then none else some (.array (s.children.map toJson)))]

/-- All fields of a snapshot. -/
def fields (s : Snapshot) : List (String × Option Json) :=
  ("id", s.id?.map nat) :: (s.content.kind.fields ++ s.laterFields)

/-- The fields that are not those of the kind. -/
def ownFields (s : Snapshot) : List (String × Option Json) :=
  ("id", s.id?.map nat) :: s.laterFields

theorem toJson_eq (s : Snapshot) : s.toJson = objectOf s.fields := by
  obtain ⟨id, content, component, children⟩ := s
  rw [toJson, listToJson_eq]
  rfl

/-- No field of a kind has a name that the snapshot uses for itself. -/
theorem kind_fields_disjoint (k : Kind) : ∀ name ∈ k.fields.map Prod.fst, name ∉ ownNames := by
  cases k <;> simp [Kind.fields, ownNames]

theorem nodup_ownFields (s : Snapshot) : (s.ownFields.map Prod.fst).Nodup :=
  show ownNames.Nodup by decide

theorem nodup_fields (s : Snapshot) : (s.fields.map Prod.fst).Nodup := by
  rw [fields, laterFields]
  cases s.content.kind <;> simp [Kind.fields]

theorem lookup_children (s : Snapshot) : s.fields.lookup "children" =
    some (if s.children.isEmpty then none else some (.array (s.children.map toJson))) := by
  rw [fields]
  cases s.content.kind <;> rfl

theorem filter_own (s : Snapshot) :
    (present s.fields).filter (fun field => ownNames.contains field.1) = present s.ownFields := by
  have hkind : (present s.content.kind.fields).filter
      (fun field => ownNames.contains field.1) = [] :=
    List.filter_eq_nil_iff.mpr fun field hfield hown =>
      kind_fields_disjoint _ _ (fst_mem_of_mem_present hfield) (List.contains_iff_mem.mp hown)
  have hlater : s.laterFields.map Prod.fst ⊆ ownNames := List.subset_cons_self _ _
  -- The fields of the kind stand between the first of these fields and the others.
  rw [fields, ownFields, present_cons, present_cons, present_append, List.filter_append,
    List.filter_append, hkind, List.nil_append, filter_present hlater]
  cases s.id? <;> rfl

theorem filter_kind (s : Snapshot) :
    (present s.fields).filter (fun field => !ownNames.contains field.1) =
      present s.content.kind.fields := by
  have hkind : (present s.content.kind.fields).filter
      (fun field => !ownNames.contains field.1) = present s.content.kind.fields :=
    List.filter_eq_self.mpr fun field hfield => by
      simpa using kind_fields_disjoint _ _ (fst_mem_of_mem_present hfield)
  have hlater : (present s.laterFields).filter (fun field => !ownNames.contains field.1) = [] :=
    List.filter_eq_nil_iff.mpr fun field hfield => by
      have hown : field.1 ∈ ownNames := List.mem_cons_of_mem _ (fst_mem_of_mem_present hfield)
      simpa using hown
  rw [fields, present_cons, present_append, List.filter_append, List.filter_append, hkind, hlater,
    List.append_nil]
  cases s.id? <;> rfl

/-! ### Reading -/

theorem listOf?_eq (js : List Json) : ofJson?.listOf? js = js.mapM ofJson? := by
  induction js with
  | nil => rfl
  | cons j js ih =>
    rw [ofJson?.listOf?, ih, List.mapM_cons]
    cases ofJson? j with
    | none => rfl
    | some s => cases js.mapM ofJson? <;> rfl

theorem childrenOf?_eq (fields : Fields) :
    ofJson?.childrenOf? fields = orElse? [] (list? ofJson?) fields "children" := by
  induction fields with
  | nil => rfl
  | cons field fields ih => 
    obtain ⟨key, j⟩ := field
    by_cases hkey : key = "children"
    · subst hkey
      cases j <;> simp [ofJson?.childrenOf?, orElse?, list?, listOf?_eq]
    · have hname : ("children" == key) = false := beq_eq_false_iff_ne.mpr (Ne.symm hkey)
      have hskip : ofJson?.childrenOf? ((key, j) :: fields) = ofJson?.childrenOf? fields := by
        cases j <;> simp [ofJson?.childrenOf?, hkey]
      rw [hskip, ih, orElse?, orElse?, List.lookup_cons, hname]

/-- A snapshot is read from its fields and the snapshots of its children. -/
theorem assemble?_fields (s : Snapshot) (h : s.content.Fits) :
    assemble? (present s.fields) s.children = some s := by
  have hnodup := s.nodup_ownFields
  have hid : optional? nat? (present s.ownFields) "id" = some s.id? :=
    optional?_present hnodup rfl (fun _ _ => rfl) rfl
  have hproperties : orElse? {} (Properties.ofJson? .strict) (present s.ownFields) "properties" =
      some s.content.properties :=
    orElse?_unless hnodup rfl id (s.content.properties.ofJson?_toJson .strict)
  have hlink : optional? Link.ofJson? (present s.ownFields) "link" = some s.content.link :=
    optional?_present hnodup rfl (fun l _ => l.ofJson?_toJson) rfl
  have hcomponent : optional? nat? (present s.ownFields) "sharedComponent" = some s.component? :=
    optional?_present hnodup rfl (fun _ _ => rfl) rfl
  have hkind : Kind.ofJson? .loose (.object (present s.content.kind.fields)) =
      some s.content.kind := Kind.ofJson?_toJson h .loose
  rw [assemble?, filter_own, filter_kind, distinctNames_present hnodup, hkind]
  simp only [Option.bind_eq_bind, Option.bind_some, hid, hproperties, hlink, hcomponent]
  cases s
  rfl

theorem ofJson?_toJson (h : s.Fits) : ofJson? s.toJson = some s := by
  induction h with
  | @mk id component content children hid hcontent hcomponent hchildren ih =>
    have hinner : orElse? [] (list? ofJson?) (present (mk id content component children).fields)
        "children" = some children :=
      orElse?_unless (nodup_fields _) (lookup_children _) List.isEmpty_iff.mp (list?_map ih)
    -- The children are read first, and all that is left is the node itself.
    rw [toJson_eq, objectOf_eq, ofJson?, childrenOf?_eq, hinner]
    exact assemble?_fields (mk id content component children) hcontent

theorem plain_toJson (h : s.Fits) : Plain s.toJson := by
  induction h with
  | @mk id component content children hid hcontent hcomponent hchildren ih =>
    have hnumber : ∀ j, id.map nat = some j → Plain j := by
      simpa using fun i hi => Plain.nat (hid i hi)
    have hlater : ∀ field ∈ (mk id content component children).laterFields,
        ∀ j, field.2 = some j → Plain j := by
      simpa [laterFields, component?, Snapshot.children, Properties.plain_toJson,
        Link.plain_toJson] using
        And.intro (fun i hi => Plain.nat (hcomponent i hi)) fun _ => plain_map ih
    rw [toJson_eq]
    refine plain_objectOf ?_
    rw [fields, List.forall_mem_cons, List.forall_mem_append]
    exact ⟨hnumber, Kind.plain_fields hcontent, hlater⟩

/-- A snapshot that is not nested too deeply is read back from its text. -/
theorem read?_pretty (h : s.Fits) (hdepth : s.toJson.depth ≤ nestingLimit) :
    read? s.pretty = some s := by
  rw [read?, pretty, (plain_toJson h).read?_pretty hdepth, Option.bind_some, ofJson?_toJson h]

end Snapshot

end ContentTree
