import JarText.Proofs.JsonText
import JarText.Sheet

/-!
# Sheets that are read back

A sheet is read from the text that is written for it. The number of a record has to fit 64 bits.
-/

set_option autoImplicit false

namespace JarText

open JsonReader (ReadsBack)

namespace Json

theorem uint16?_natural (n : UInt16) : (natural n.toNat).uint16? = some n := by
  have hn : n.toNat < UInt16.size := n.toNat_lt
  change (if n.toNat < UInt16.size then some (UInt16.ofNat n.toNat) else none) = some n
  rw [if_pos hn, UInt16.ofNat_toNat]

theorem nullable?_uint16 (n : UInt16) : (natural n.toNat).nullable? uint16? = some (some n) := by
  change (uint16? (natural n.toNat)).map some = _
  rw [uint16?_natural]
  rfl

theorem nullable?_string (text : String) : (string text).nullable? string? = some (some text) := rfl

end Json

namespace SheetRecord

theorem ofJson?_toJson (record : SheetRecord) : ofJson? record.toJson = some record := by
  obtain ⟨id, entry, textIndex, className, method, line, context, before, value⟩ := record
  -- whether the two fields that may be missing are there decides which fields are looked up
  cases line <;> cases context <;>
    simp [toJson, ofJson?, Json.field?, Json.optionalField?, Json.natural?, Json.string?,
      Json.uint16?_natural, Json.nullable?_uint16, Json.nullable?_string]

theorem readsBack_uint16 (n : UInt16) : ReadsBack 0 (.natural n.toNat) := by
  apply JsonReader.readsBack_natural
  exact Nat.le_of_lt_succ (Nat.lt_trans n.toNat_lt (by decide))

theorem readsBack_toJson {record : SheetRecord} (hid : record.id < UInt64.size) :
    ReadsBack 1 record.toJson := by
  have hnumber : ReadsBack 0 (.natural record.id) :=
    JsonReader.readsBack_natural (Nat.le_of_lt_succ hid)
  apply JsonReader.readsBack_object
  intro field hfield
  simp only [List.mem_append, List.mem_cons, List.not_mem_nil, or_false, Option.mem_toList,
    Option.map_eq_some_iff] at hfield
  rcases hfield with
    (((rfl | rfl | rfl | rfl | rfl) | ⟨line, _, rfl⟩) | ⟨context, _, rfl⟩) | rfl | rfl
  · exact hnumber
  · exact JsonReader.readsBack_string record.entry
  · exact readsBack_uint16 record.textIndex
  · exact JsonReader.readsBack_string record.className
  · exact JsonReader.readsBack_string record.method
  · exact readsBack_uint16 line
  · exact JsonReader.readsBack_string context
  · exact JsonReader.readsBack_string record.before
  · exact JsonReader.readsBack_string record.value

end SheetRecord

namespace Sheet

theorem mapM_ofJson?_map_toJson (records : List SheetRecord) :
    (records.map SheetRecord.toJson).mapM SheetRecord.ofJson? = some records := by
  induction records with
  | nil => rfl
  | cons record records ih =>
    rw [List.map_cons, List.mapM_cons, SheetRecord.ofJson?_toJson, ih]
    rfl

theorem ofJson?_toJson (sheet : Sheet) : ofJson? sheet.toJson = some sheet := by
  have hstrings := mapM_ofJson?_map_toJson sheet.strings
  simp [toJson, ofJson?, Json.field?, Json.string?, Json.list?, hstrings]

theorem readsBack_toJson {sheet : Sheet} (hids : ∀ record ∈ sheet.strings, record.id < UInt64.size) :
    ReadsBack 3 sheet.toJson := by
  have hstrings : ReadsBack 2 (.array (sheet.strings.map SheetRecord.toJson)) := by
    apply JsonReader.readsBack_array
    intro item hitem
    obtain ⟨record, hrecord, rfl⟩ := List.mem_map.mp hitem
    exact SheetRecord.readsBack_toJson (hids record hrecord)
  have htext (text : String) : ReadsBack 2 (.string text) :=
    (JsonReader.readsBack_string text).mono (by decide)
  apply JsonReader.readsBack_object
  intro field hfield
  simp only [List.mem_cons, List.not_mem_nil, or_false] at hfield
  rcases hfield with rfl | rfl | rfl
  · exact htext _
  · exact htext _
  · exact hstrings

/-- A sheet is read back from the text that is written for it. -/
theorem parse_render {sheet : Sheet} (hids : ∀ record ∈ sheet.strings, record.id < UInt64.size) :
    parse sheet.toJson.render = .ok [sheet] := by
  obtain ⟨cursor, hvalue, hend⟩ := Json.readValue_render (readsBack_toJson hids) (by decide)
  rw [parse, hvalue]
  dsimp only
  rw [listOfJson?, ofJson?_toJson]
  dsimp only
  rw [hend]

end Sheet

end JarText
