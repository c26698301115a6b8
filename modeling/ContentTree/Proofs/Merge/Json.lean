import ContentTree.Merge.Json
import ContentTree.Proofs.Snapshot.Json

/-!
# Operations read back

An operation is read back from its document, and its document from its text, as it is never nested
deeply. Together with snapshots these are the documents that leave the program and come back.

## Main definitions

* `Operation.Fits`: identifiers and versions fit into 64 bits.

## Main results

* `Operation.ofJson?_toJson`: an operation is read back from its document.
* `Operation.plain_toJson`, `Operation.depth_toJson_le`: its document is read back from its text.
* `texts_read_back`: snapshots and operations are read back from their texts.
-/

namespace ContentTree.Merge

open Json

namespace Operation

variable {op : Operation}

/-- All identifiers and versions fit into 64 bits. -/
def Fits : Operation → Prop
  | delete id => id < wholeBound
  | create _ _ content => content.Fits
  | move _ _ id => ∀ i ∈ id, i < wholeBound
  | update _ id content => id < wholeBound ∧ content.Fits

theorem plain_keys (keys : List BranchKey) : Plain (.array (keys.map .string)) :=
  plain_map fun key _ => .string key

theorem plain_fields (h : op.Fits) : ∀ field ∈ op.fields, Plain field.2 := by
  cases op with
  | delete id =>
    simp only [fields, List.forall_mem_cons]
    exact ⟨.nat h, List.forall_mem_nil _⟩
  | create place key content =>
    simp only [fields, List.forall_mem_cons]
    exact ⟨.string _, plain_keys _, .string _, content.plain_toJson h, List.forall_mem_nil _⟩
  | move place key id =>
    have hid : Plain (orNull (id.map nat)) := by
      cases id with
      | none => exact .null
      | some i => exact .nat (h i rfl)
    simp only [fields, List.forall_mem_cons]
    exact ⟨.string _, plain_keys _, .string _, hid, List.forall_mem_nil _⟩
  | update key id content =>
    simp only [fields, List.forall_mem_cons]
    exact ⟨.string _, .nat h.1, content.plain_toJson h.2, List.forall_mem_nil _⟩

theorem plain_toJson (h : op.Fits) : Plain op.toJson :=
  .object (List.forall_mem_cons.mpr ⟨.string _, plain_fields h⟩)

theorem depth_fields_le (op : Operation) : ∀ field ∈ op.fields, field.2.depth ≤ 5 := by
  have hkeys : ∀ keys : List BranchKey, (array (keys.map .string)).depth ≤ 5 :=
    fun keys => (depth_map_le fun _ _ => Nat.le_refl 0).trans (by decide)
  cases op with
  | delete id => simp [fields]
  | create place key content =>
    simp only [fields, List.forall_mem_cons]
    exact ⟨Nat.zero_le _, hkeys _, Nat.zero_le _, content.depth_toJson_le, List.forall_mem_nil _⟩
  | move place key id =>
    have hid : (orNull (id.map nat)).depth ≤ 5 := by cases id <;> simp [orNull]
    simp only [fields, List.forall_mem_cons]
    exact ⟨Nat.zero_le _, hkeys _, Nat.zero_le _, hid, List.forall_mem_nil _⟩
  | update key id content =>
    simp only [fields, List.forall_mem_cons]
    exact ⟨Nat.zero_le _, Nat.zero_le _, content.depth_toJson_le, List.forall_mem_nil _⟩

theorem depth_toJson_le (op : Operation) : op.toJson.depth ≤ 6 :=
  depth_object_le (List.forall_mem_cons.mpr ⟨Nat.zero_le _, op.depth_fields_le⟩)

theorem list?_keys (keys : List BranchKey) :
    list? string? (.array (keys.map .string)) = some keys :=
  list?_map fun _ _ => rfl

/-- An operation is read back from its document. -/
theorem ofJson?_toJson (h : op.Fits) : ofJson? op.toJson = some op := by
  have hop : "op" ∉ op.fields.map Prod.fst := by cases op <;> simp [fields]
  have htag : tagged? .strict [] "op" op.toJson = some (op.word, .object op.fields) :=
    tagged?_object .strict [] hop (plain_toJson h).isReadable
  rw [ofJson?, htag]
  -- Once the variant is known, its fields are found by their names.
  cases op with
  | delete id => rfl
  | create place key content =>
    change (((list? string? (.array (place.followers.map .string))).bind fun followers =>
      some ⟨place.parent, followers⟩).bind fun destination =>
        (Content.ofJson? .loose content.toJson).bind fun content =>
          some (create destination key content)) = _
    rw [list?_keys, content.ofJson?_toJson h]
    rfl
  | move place key id =>
    change (((list? string? (.array (place.followers.map .string))).bind fun followers =>
      some ⟨place.parent, followers⟩).bind fun destination =>
        (optional? nat? (move place key id).fields "originalNode").bind fun id =>
          some (move destination key id)) = _
    rw [list?_keys]
    cases id <;> rfl
  | update key id content =>
    change ((Content.ofJson? .loose content.toJson).bind fun content =>
      some (update key id content)) = _
    rw [content.ofJson?_toJson h.2]
    rfl

/-- An operation is read back from its text in either layout. -/
theorem read_text (h : op.Fits) :
    (Json.read? op.toJson.compact).bind ofJson? = some op ∧
      (Json.read? op.toJson.pretty).bind ofJson? = some op := by
  have hdepth : op.toJson.depth ≤ nestingLimit := op.depth_toJson_le.trans (by decide)
  rw [(plain_toJson h).read?_compact hdepth, (plain_toJson h).read?_pretty hdepth]
  exact ⟨ofJson?_toJson h, ofJson?_toJson h⟩

end Operation

/-- What is written is read back as it was, whatever texts, attributes, properties, grants and links
there are in it: snapshots whose documents are nested at most 127 levels deep, and all operations,
with identifiers and versions that fit into 64 bits. -/
theorem texts_read_back :
    (∀ s : Snapshot, s.Fits → s.toJson.depth ≤ 127 → Snapshot.read? s.pretty = some s) ∧
      ∀ op : Operation, op.Fits →
        (Json.read? op.toJson.compact).bind Operation.ofJson? = some op ∧
          (Json.read? op.toJson.pretty).bind Operation.ofJson? = some op :=
  ⟨fun _ h hdepth => Snapshot.read?_pretty h hdepth, fun _ h => Operation.read_text h⟩

/-- A content with empty and escaped texts, attributes, grants and a link. -/
def intricateContent : Content where
  kind := .element "" (((∅ : Attributes).insert "a\"\\" "\x00\n\x7f").insert "é😀" "")
  properties :=
    { name := some "", visibleToUsers := true, owner := some "\"",
      grants := [⟨"\x08\x0c", ⟨true, false, false, true⟩⟩, ⟨"", {}⟩], dataHash := some "null" }
  link := some ⟨"/\\u0041", true⟩

/-- A snapshot with the largest identifiers and version, a shared component, and such a content. -/
def intricateSnapshot : Snapshot :=
  .mk (some (wholeBound - 1)) { kind := .page "\t" (wholeBound - 1) true } none
    [.mk none intricateContent (some (wholeBound - 1)) [],
      .mk (some 0) { kind := .text "children" (some "") } none [],
      .mk none { kind := .fragment, properties := { grants := [⟨"\r", {}⟩] } } none
        [.mk none { kind := .component "type" } none []]]

/-- An operation that adds such a content. -/
def intricateOperation : Operation :=
  .create ⟨"", ["\"#1", "é"]⟩ "\\" intricateContent

theorem fits_intricateSnapshot : intricateSnapshot.Fits := by
  simp [intricateSnapshot, intricateContent, Snapshot.fits_mk_iff, Content.Fits, Kind.Fits,
    Kind.version?, wholeBound]

theorem fits_intricateOperation : intricateOperation.Fits :=
  nofun

/-- Quotes, backslashes, controls, characters of any script and the largest numbers come back. -/
theorem texts_read_back_intricate :
    (intricateSnapshot.Fits ∧ intricateSnapshot.toJson.depth ≤ 127 ∧
      Snapshot.read? intricateSnapshot.pretty = some intricateSnapshot) ∧
    (intricateOperation.Fits ∧
      (Json.read? intricateOperation.toJson.compact).bind Operation.ofJson? =
        some intricateOperation ∧
      (Json.read? intricateOperation.toJson.pretty).bind Operation.ofJson? =
        some intricateOperation) := by
  have hdepth : intricateSnapshot.toJson.depth ≤ 127 := by decide +kernel
  exact ⟨⟨fits_intricateSnapshot, hdepth, texts_read_back.1 _ fits_intricateSnapshot hdepth⟩,
    fits_intricateOperation, texts_read_back.2 _ fits_intricateOperation⟩

end ContentTree.Merge
