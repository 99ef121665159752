import JarText.Proofs.ClassCodec
import JarText.Proofs.PoolLookup
import JarText.Proofs.TextCodec

/-!
# A new text is a local change of the bytes

Where a text stands in the bytes of a class depends on every constant before it. Putting another
text in its place exchanges its two length bytes and its payload; what stands before and after them
is kept. The slots that are not named keep their constants.
-/

set_option autoImplicit false

namespace JarText

open Text

namespace Pool

variable {pool : Pool} {constants : List Constant} {constant : Constant} {index : UInt16}
  {bytes : Bytes}

theorem of_getElem?_slotsOf {other : Constant} {i : Nat}
    (h : (slotsOf other)[i]? = some (some constant)) : i = 0 ∧ other = constant := by
  unfold slotsOf at h
  split at h
  · match i with
    | 0 => simpa using h
    | 1 => simp at h
    | i + 2 => simp at h
  · match i with
    | 0 => simpa using h
    | i + 1 => simp at h

/-- A slot that holds a constant has those of the constants before it in front of it. -/
theorem exists_append_of_slot {i : Nat}
    (h : (constants.flatMap slotsOf)[i]? = some (some constant)) :
    ∃ front back, constants = front ++ constant :: back ∧
      i = (front.flatMap slotsOf).length := by
  induction constants generalizing i with
  | nil => simp at h
  | cons other constants ih =>
    rw [List.flatMap_cons, List.getElem?_append] at h
    split at h
    · obtain ⟨rfl, rfl⟩ := of_getElem?_slotsOf h
      exact ⟨[], constants, rfl, rfl⟩
    · rename_i hle
      obtain ⟨front, back, rfl, hi⟩ := ih h
      refine ⟨other :: front, back, rfl, ?_⟩
      rw [List.flatMap_cons, List.length_append]
      omega

/-- The constants around a text, and the pool with other bytes for it. -/
theorem Holds.around_payload (h : pool.Holds constants)
    (hpayload : pool.payload index = .ok bytes) :
    ∃ front back, constants = front ++ .utf8 bytes :: back ∧
      (pool.slots.toList.take index.toNat).drop 1 = front.flatMap slotsOf ∧
      ∀ bytes', (pool.withPayload index bytes').Holds (front ++ .utf8 bytes' :: back) := by
  have hslot := get_eq_ok_iff.mp (payload_eq_ok_iff.mp hpayload)
  rw [← Array.getElem?_toList, h] at hslot
  cases hindex : index.toNat with
  | zero => simp [hindex] at hslot
  | succ i =>
    rw [hindex, List.getElem?_cons_succ] at hslot
    obtain ⟨front, back, rfl, rfl⟩ := exists_append_of_slot hslot
    refine ⟨front, back, rfl, ?_, ?_⟩
    · rw [h, List.take_succ_cons, List.drop_one, List.tail_cons, List.flatMap_append,
        List.take_left]
    · intro bytes'
      rw [Holds, withPayload, Array.toList_setIfInBounds, h, hindex, List.set_cons_succ]
      rw [List.flatMap_append, List.set_append_right _ _ (Nat.le_refl _), Nat.sub_self]
      rw [List.flatMap_append]
      rfl

theorem Fits.withPayload (h : pool.Fits) (hpayload : pool.payload index = .ok bytes)
    {bytes' : Bytes} (hlength : bytes'.length < 65536) : (pool.withPayload index bytes').Fits := by
  obtain ⟨hsize, constants, hholds, hfits⟩ := h
  obtain ⟨front, back, rfl, _, hwith⟩ := hholds.around_payload hpayload
  refine ⟨?_, front ++ .utf8 bytes' :: back, hwith bytes', ?_⟩
  · rwa [Pool.withPayload, Array.size_setIfInBounds]
  · intro c hc
    rcases List.mem_append.mp hc with hc | hc
    · exact hfits c (List.mem_append_left _ hc)
    · rcases List.mem_cons.mp hc with rfl | hc
      · exact hlength
      · exact hfits c (List.mem_append_right _ (List.mem_cons_of_mem _ hc))

theorem withPayload_self (hpayload : pool.payload index = .ok bytes) :
    pool.withPayload index bytes = pool := by
  have hslots : (pool.withPayload index bytes).slots = pool.slots := by
    apply Array.ext_getElem?
    intro i
    rw [getElem?_withPayload hpayload]
    split
    · rename_i hi
      rw [hi, get_eq_ok_iff.mp (payload_eq_ok_iff.mp hpayload)]
    · rfl
  exact congrArg Pool.mk hslots

end Pool

namespace ClassFile

variable {file : ClassFile} {index : UInt16} {bytes : Bytes}

/-- What a class is written as up to the length of the text at an index: its head, the constants
before that slot, and the tag of a text. -/
def bytesBeforeText (file : ClassFile) (index : UInt16) : Bytes :=
  Bytes.ofUInt32 magic ++ Bytes.ofUInt16 file.minor ++ Bytes.ofUInt16 file.major
    ++ Bytes.ofUInt16 file.pool.count
    ++ ((file.pool.slots.toList.take index.toNat).drop 1).flatMap Pool.writeSlot
    ++ [(Constant.utf8 []).tag]

def withPayload (file : ClassFile) (index : UInt16) (bytes : Bytes) : ClassFile :=
  { file with pool := file.pool.withPayload index bytes }

/-- The bytes around a text do not depend on it. -/
theorem write_withPayload (hfits : file.Fits) (hpayload : file.pool.payload index = .ok bytes) :
    ∃ after, ∀ bytes', (file.withPayload index bytes').write =
      file.bytesBeforeText index ++ (Bytes.bigEndian 2 bytes'.length ++ bytes') ++ after := by
  obtain ⟨_, constants, hholds, _⟩ := hfits.pool
  obtain ⟨front, back, rfl, hfront, hwith⟩ := hholds.around_payload hpayload
  refine ⟨back.flatMap Constant.write ++ (Bytes.ofUInt16 file.access
    ++ Bytes.ofUInt16 file.thisClass ++ Bytes.ofUInt16 file.superClass
    ++ (Bytes.bigEndian 2 file.interfaces.length ++ file.interfaces.flatMap Bytes.ofUInt16)
    ++ Member.writeAll file.fields ++ Member.writeAll file.methods
    ++ Attribute.writeAll file.attributes), ?_⟩
  intro bytes'
  have hcount : (file.pool.withPayload index bytes').count = file.pool.count := by
    rw [Pool.count, Pool.withPayload, Array.size_setIfInBounds, Pool.count]
  have hbefore : (front.flatMap Pool.slotsOf).flatMap Pool.writeSlot
      = front.flatMap Constant.write := by
    rw [List.flatMap_assoc]
    simp only [Pool.flatMap_writeSlot]
  simp only [write, withPayload, bytesBeforeText, (hwith bytes').write_eq, hcount, hfront, hbefore,
    List.flatMap_append, List.flatMap_cons, Constant.write, Constant.tag, Constant.body,
    List.append_assoc, List.cons_append, List.nil_append]

theorem Fits.withPayload (hfits : file.Fits) (hpayload : file.pool.payload index = .ok bytes)
    {bytes' : Bytes} (hlength : bytes'.length < 65536) : (file.withPayload index bytes').Fits where
  pool := hfits.pool.withPayload hpayload hlength
  interfaces := hfits.interfaces
  fields := hfits.fields
  methods := hfits.methods
  attributes := hfits.attributes

/-- Setting a text and writing the class exchanges the length and the payload of that text in the
bytes, and reading the result gives the class with this slot changed. -/
theorem setText_splices_bytes {payload : Bytes} {value : String} (hread : read bytes = .ok file)
    (hpayload : file.pool.payload index = .ok payload)
    (hlength : (ModifiedUtf8.encode value).length ≤ 65535) :
    ∃ pool after,
      file.pool.setText index value = .ok pool ∧
      bytes = file.bytesBeforeText index
        ++ (Bytes.bigEndian 2 payload.length ++ payload) ++ after ∧
      { file with pool }.write = file.bytesBeforeText index
        ++ (Bytes.bigEndian 2 (ModifiedUtf8.encode value).length ++ ModifiedUtf8.encode value)
        ++ after ∧
      Bytes.value (Bytes.bigEndian 2 (ModifiedUtf8.encode value).length) =
        (ModifiedUtf8.encode value).length ∧
      read { file with pool }.write = .ok { file with pool } ∧
      (∀ i, pool.slots[i]? =
        if i = index.toNat then some (some (.utf8 (ModifiedUtf8.encode value)))
        else file.pool.slots[i]?) ∧
      pool.text index = .ok value := by
  obtain ⟨hfits, rfl⟩ := read_eq_ok_iff.mp hread
  obtain ⟨after, hwrite⟩ := write_withPayload hfits hpayload
  have hself : file.withPayload index payload = file := by
    rw [ClassFile.withPayload, Pool.withPayload_self hpayload]
  refine ⟨file.pool.withPayload index (ModifiedUtf8.encode value), after,
    ?_, ?_, ?_, ?_, ?_, ?_, ?_⟩
  · exact Pool.setText_eq_ok_iff.mpr ⟨hlength, ⟨payload, hpayload⟩, rfl⟩
  · have hold := hwrite payload
    rwa [hself] at hold
  · exact hwrite (ModifiedUtf8.encode value)
  · rw [Bytes.value_bigEndian]
    exact Nat.mod_eq_of_lt (by omega)
  · exact read_eq_ok_iff.mpr ⟨hfits.withPayload hpayload (by omega), rfl⟩
  · exact Pool.getElem?_withPayload hpayload
  · rw [Pool.text, Pool.payload_withPayload hpayload]
    exact congrArg Except.ok (ModifiedUtf8.decode_encode value)

theorem setText_splices_specimen :
    read specimenBytes = .ok specimen ∧ specimen.pool.payload 6 = .ok [72, 105] ∧
      (ModifiedUtf8.encode "Grüße").length ≤ 65535 ∧
      ∃ pool after,
        specimen.pool.setText 6 "Grüße" = .ok pool ∧
        specimenBytes = specimen.bytesBeforeText 6 ++ ([0, 2] ++ [72, 105]) ++ after ∧
        { specimen with pool }.write = specimen.bytesBeforeText 6
          ++ ([0, 7] ++ [71, 114, 195, 188, 195, 159, 101]) ++ after ∧
        read { specimen with pool }.write = .ok { specimen with pool } ∧
        pool.text 6 = .ok "Grüße" := by
  have hpayload : specimen.pool.payload 6 = .ok [72, 105] := by decide +kernel
  have hencode : ModifiedUtf8.encode "Grüße" = [71, 114, 195, 188, 195, 159, 101] := by
    decide +kernel
  have hlength : (ModifiedUtf8.encode "Grüße").length ≤ 65535 := by
    rw [hencode]
    decide
  obtain ⟨pool, after, hset, hold, hnew, _, hread, _, htext⟩ :=
    setText_splices_bytes read_specimenBytes hpayload hlength
  rw [hencode] at hnew
  exact ⟨read_specimenBytes, hpayload, hlength, pool, after, hset, hold, hnew, hread, htext⟩

end ClassFile

end JarText
