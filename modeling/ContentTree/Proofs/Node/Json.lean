import ContentTree.Node.Json
import ContentTree.Proofs.Json.Record

/-!
# Nodes read back

What a document says of the content of a node is read back, however freely kinds and permissions may
be spelled where it stands.

## Main definitions

* `Kind.Fits`, `Content.Fits`: the version of a page fits into 64 bits.

## Main results

* `Kind.ofJson?_toJson`, `Properties.ofJson?_toJson`, `Link.ofJson?_toJson`,
  `Content.ofJson?_toJson`: each is read back from its document.
* `Kind.plain_fields`, `Properties.plain_toJson`, `Link.plain_toJson`, `Content.plain_toJson`: each
  document is read back from its text.
* `Content.depth_toJson_le`: none of them is nested deeply.
-/

namespace ContentTree

open Json

/-! ### Grants -/

theorem PermissionSet.ofList_toList (s : PermissionSet) : ofList s.toList = s := by
  obtain ⟨read, write, delete, accessControl⟩ := s
  cases read <;> cases write <;> cases delete <;> cases accessControl <;> rfl

theorem Permission.ofJson?_word (spelling : Spelling) (p : Permission) :
    ofJson? spelling (.string p.word) = some p := by
  cases p <;> rfl

theorem Grant.ofJson?_toJson (spelling : Spelling) (g : Grant) :
    ofJson? spelling g.toJson = some g := by
  have hpermissions : list? (Permission.ofJson? spelling)
      (.array (g.permissions.toList.map fun p => .string p.word)) = some g.permissions.toList :=
    list?_map fun p _ => p.ofJson?_word spelling
  have hread : ofJson? spelling g.toJson =
      (list? (Permission.ofJson? spelling)
        (.array (g.permissions.toList.map fun p => .string p.word))).bind fun ps =>
          some ⟨g.principal, .ofList ps⟩ := rfl
  rw [hread, hpermissions, Option.bind_some, PermissionSet.ofList_toList]

theorem Grant.plain_toJson (g : Grant) : Plain g.toJson := by
  refine .object ?_
  simp [Plain.string, plain_map]

theorem Grant.depth_toJson_le (g : Grant) : g.toJson.depth ≤ 2 := by
  have hpermissions : (array (g.permissions.toList.map fun p => .string p.word)).depth ≤ 1 :=
    depth_map_le fun _ _ => Nat.le_refl 0
  refine depth_object_le ?_
  simpa using hpermissions

/-! ### Links -/

theorem Link.ofJson?_toJson (l : Link) : ofJson? l.toJson = some l :=
  rfl

theorem Link.plain_toJson (l : Link) : Plain l.toJson := by
  refine .object ?_
  simp [Plain.string, Plain.bool]

theorem Link.depth_toJson_le (l : Link) : l.toJson.depth ≤ 1 := by
  refine depth_object_le ?_
  simp

/-! ### Properties -/

namespace Properties

theorem ofJson?_toJson (spelling : Spelling) (p : Properties) :
    ofJson? spelling p.toJson = some p := by
  have hnodup : (p.fields.map Prod.fst).Nodup := show names.Nodup by decide
  have htext : ∀ name o, p.fields.lookup name = some (o.map .string) →
      optional? string? (present p.fields) name = some o :=
    fun name o hlookup => optional?_present hnodup hlookup (fun _ _ => rfl) rfl
  have hflag : ∀ name b, p.fields.lookup name = some (some (.bool b)) →
      orElse? false bool? (present p.fields) name = some b :=
    fun name b hlookup => orElse?_present hnodup hlookup rfl
  have hgrants : orElse? [] (list? (Grant.ofJson? spelling)) (present p.fields) "grants" =
      some p.grants :=
    orElse?_unless hnodup rfl List.isEmpty_iff.mp (list?_map fun g _ => g.ofJson?_toJson spelling)
  have hrecord : record? names p.toJson = some (present p.fields) :=
    record?_objectOf hnodup (List.Subset.refl _)
  rw [ofJson?, hrecord]
  -- Every property is found under its own name.
  dsimp only [Option.bind_eq_bind, Option.bind_some]
  rw [htext "name" _ rfl, hflag "visibleToPublicUsers" _ rfl,
    hflag "visibleToAuthenticatedUsers" _ rfl, htext "owner" _ rfl, hgrants,
    htext "dataKey" _ rfl, htext "restQuery" _ rfl, htext "functionQuery" _ rfl,
    htext "graphQuery" _ rfl, htext "pathQuery" _ rfl, htext "showForLocales" _ rfl,
    htext "hideForLocales" _ rfl, htext "showConditions" _ rfl, htext "hideConditions" _ rfl,
    hflag "renderDetails" _ rfl, hflag "hideOnIndex" _ rfl, hflag "hideOnDetail" _ rfl,
    htext "sharedComponentConfiguration" _ rfl, htext "dataHash" _ rfl]
  rfl

theorem plain_toJson (p : Properties) : Plain p.toJson := by
  refine plain_objectOf ?_
  simp [fields, Plain.string, Plain.bool, plain_map, Grant.plain_toJson]

theorem depth_toJson_le (p : Properties) : p.toJson.depth ≤ 4 := by
  refine depth_objectOf_le ?_
  simp [fields, depth_map_le, Grant.depth_toJson_le]

end Properties

/-! ### Kinds -/

namespace Kind

/-- The version of a page fits into 64 bits. -/
def Fits (k : Kind) : Prop :=
  ∀ version ∈ k.version?, version < wholeBound

theorem fields_eq (k : Kind) : k.fields = ("type", some (.string k.word)) :: k.fields.tail := by
  cases k <;> rfl

theorem ofTagged?_fields (k : Kind) : ofTagged? k.word (objectOf k.fields.tail) = some k := by
  cases k with
  | page name version shadow => cases shadow <;> rfl
  | element tag attributes =>
    -- Attributes are left out where there are none.
    have hnodup : ((element tag attributes).fields.tail.map Prod.fst).Nodup :=
      show ["tag", "attributes"].Nodup by decide
    have htag : required? string? (present (element tag attributes).fields.tail) "tag" = some tag :=
      required?_present hnodup rfl rfl
    have hstring : ∀ s, string? (.string s) = some s := fun _ => rfl
    have hattributes : orElse? ∅ (map? string?) (present (element tag attributes).fields.tail)
        "attributes" = some attributes :=
      orElse?_unless hnodup rfl Std.ExtTreeMap.isEmpty_iff.mp (map?_ofMap hstring _)
    have hrecord : record? ["tag", "attributes"] (objectOf (element tag attributes).fields.tail) =
        some (present (element tag attributes).fields.tail) :=
      record?_objectOf hnodup (List.Subset.refl _)
    rw [word, ofTagged?, hrecord]
    simp only [Option.bind_eq_bind, Option.bind_some, htag, hattributes]
    rfl
  | text content contentType => cases contentType <;> rfl
  | component name => rfl
  | fragment => rfl

theorem plain_fields {k : Kind} (h : k.Fits) :
    ∀ field ∈ k.fields, ∀ j, field.2 = some j → Plain j := by
  cases k with
  | page name version shadow => simp [fields, Plain.string, Plain.bool, Plain.nat (h version rfl)]
  | element tag attributes => simp [fields, Plain.string, plain_ofMap]
  | text content contentType => simp [fields, Plain.string]
  | component name => simp [fields, Plain.string]
  | fragment => simp [fields, Plain.string]

theorem ofJson?_toJson {k : Kind} (h : k.Fits) (spelling : Spelling) :
    ofJson? spelling k.toJson = some k := by
  have htag : "type" ∉ k.fields.tail.map Prod.fst := by
    cases k <;> simp [fields]
  have hreadable : (objectOf k.fields).isReadable = true :=
    (plain_objectOf (plain_fields h)).isReadable
  rw [fields_eq] at hreadable
  rw [ofJson?, toJson, fields_eq, tagged?_objectOf spelling words htag hreadable]
  exact k.ofTagged?_fields

theorem depth_toJson_le (k : Kind) : k.toJson.depth ≤ 2 := by
  refine depth_objectOf_le ?_
  cases k with
  | element tag attributes =>
    have hattributes : (ofMap .string attributes).depth ≤ 1 :=
      depth_ofMap_le (fun _ => Nat.le_refl 0) attributes
    simpa [fields] using fun _ => hattributes
  | _ => simp [fields]

end Kind

/-! ### Contents -/

namespace Content

/-- The version of a page fits into 64 bits. -/
def Fits (c : Content) : Prop :=
  c.kind.Fits

theorem ofJson?_toJson {c : Content} (h : c.Fits) (spelling : Spelling) :
    ofJson? spelling c.toJson = some c := by
  have hread : ofJson? spelling c.toJson =
      (Kind.ofJson? spelling c.kind.toJson).bind fun kind =>
        (Properties.ofJson? spelling c.properties.toJson).bind fun properties =>
          some ⟨kind, properties, c.link⟩ := by
    obtain ⟨kind, properties, link⟩ := c
    cases link <;> rfl
  rw [hread, Kind.ofJson?_toJson h, Option.bind_some, Properties.ofJson?_toJson]
  rfl

theorem plain_toJson {c : Content} (h : c.Fits) : Plain c.toJson := by
  refine plain_objectOf ?_
  simp [c.properties.plain_toJson, Link.plain_toJson, Kind.toJson,
    plain_objectOf (Kind.plain_fields h)]

theorem depth_toJson_le (c : Content) : c.toJson.depth ≤ 5 := by
  have hkind : c.kind.toJson.depth ≤ 4 := c.kind.depth_toJson_le.trans (by decide)
  have hlink : ∀ l, c.link = some l → l.toJson.depth ≤ 4 :=
    fun l _ => l.depth_toJson_le.trans (by decide)
  refine depth_objectOf_le ?_
  simpa [c.properties.depth_toJson_le] using And.intro hkind hlink

end Content

end ContentTree
