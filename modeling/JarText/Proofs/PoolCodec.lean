import JarText.Pool
import JarText.Proofs.Reading

/-!
# Constants and pools as bytes

`Constant.reads_read` and `Pool.reads_read`: a constant is read from exactly the bytes that it is
written as, and so is a pool. The second slot of a wide constant writes nothing, so the bytes of a
pool are those of its constants in order; `Pool.Holds` names that order.
-/

set_option autoImplicit false

namespace JarText

open Reader

namespace Constant

def Fits : Constant → Prop
  | utf8 payload => payload.length < 65536
  | _ => True

variable {offset : Nat} {tag : UInt8} {constant : Constant} {cursor next : Cursor}

theorem readPair_eq_ok_iff {part : String} {make : UInt16 → UInt16 → Constant} :
    readPair part make cursor = .ok (constant, next) ↔
      ∃ pair : UInt16 × UInt16, make pair.1 pair.2 = constant ∧
        cursor.Passes (Bytes.ofUInt16 pair.1 ++ Bytes.ofUInt16 pair.2) next := by
  simp only [readPair, bind_eq_ok_iff, uint16_eq_ok_iff, pure_eq_ok_iff, Cursor.passes_append_iff]
  constructor
  · rintro ⟨first, middle, hfirst, second, last, hsecond, rfl, rfl⟩
    exact ⟨(first, second), rfl, middle, hfirst, hsecond⟩
  · rintro ⟨⟨first, second⟩, rfl, middle, hfirst, hsecond⟩
    exact ⟨first, middle, hfirst, second, next, hsecond, rfl, rfl⟩

theorem readText_eq_ok_iff :
    (do let length ← uint16 "Utf8 length"
        let payload ← take length.toNat "Utf8 bytes"
        return utf8 payload : Reader Constant) cursor = .ok (constant, next) ↔
      ∃ payload : Bytes, utf8 payload = constant ∧ payload.length < 65536 ∧
        cursor.Passes (Bytes.bigEndian 2 payload.length ++ payload) next := by
  simp only [bind_eq_ok_iff, uint16_eq_ok_iff, take_eq_ok_iff, pure_eq_ok_iff,
    Cursor.passes_append_iff]
  constructor
  · rintro ⟨length, middle, hlength, payload, last, ⟨hpayload, hpass⟩, rfl, rfl⟩
    have hlt : payload.length < 65536 := hpayload ▸ length.toNat_lt
    rw [(ofUInt16_eq_bigEndian_iff hlt).mp hpayload] at hlength
    exact ⟨payload, rfl, hlt, middle, hlength, hpass⟩
  · rintro ⟨payload, rfl, hlt, middle, hlength, hpass⟩
    have hpayload : payload.length = (UInt16.ofNat payload.length).toNat :=
      (UInt16.toNat_ofNat_of_lt' hlt).symm
    rw [← (ofUInt16_eq_bigEndian_iff hlt).mp hpayload] at hlength
    exact ⟨_, middle, hlength, payload, next, ⟨hpayload, hpass⟩, rfl, rfl⟩

theorem readHandle_eq_ok_iff {part : String} :
    (do let kind ← uint8 part
        let reference ← uint16 part
        return methodHandle kind reference : Reader Constant) cursor = .ok (constant, next) ↔
      ∃ pair : UInt8 × UInt16, methodHandle pair.1 pair.2 = constant ∧
        cursor.Passes (pair.1 :: Bytes.ofUInt16 pair.2) next := by
  simp only [bind_eq_ok_iff, uint8_eq_ok_iff, uint16_eq_ok_iff, pure_eq_ok_iff]
  constructor
  · rintro ⟨kind, middle, hkind, reference, last, hreference, rfl, rfl⟩
    exact ⟨(kind, reference), rfl, Cursor.passes_cons_iff.mpr ⟨middle, hkind, hreference⟩⟩
  · rintro ⟨⟨kind, reference⟩, rfl, hpass⟩
    obtain ⟨middle, hkind, hreference⟩ := Cursor.passes_cons_iff.mp hpass
    exact ⟨kind, middle, hkind, reference, next, hreference, rfl, rfl⟩

theorem readBody_sound (h : readBody offset tag cursor = .ok (constant, next)) :
    constant.tag = tag ∧ constant.Fits ∧ cursor.Passes constant.body next := by
  revert h
  fun_cases readBody offset tag <;> intro h
  case case1 htag =>
    obtain ⟨payload, rfl, hlt, hpass⟩ := readText_eq_ok_iff.mp h
    exact ⟨UInt8.toNat_inj.mp htag.symm, hlt, hpass⟩
  case case18 => cases h
  -- Every other kind is a number, or two, and the lemma of its shape gives the bytes.
  all_goals
    rename_i htag
    simp only [map_eq_ok_iff, readPair_eq_ok_iff, readHandle_eq_ok_iff, uint16_eq_ok_iff,
      uint32_eq_ok_iff, uint64_eq_ok_iff] at h
    obtain ⟨number, rfl, hpass⟩ := h
    exact ⟨UInt8.toNat_inj.mp htag.symm, trivial, hpass⟩

theorem readBody_complete (hfits : constant.Fits) (hpass : cursor.Passes constant.body next) :
    readBody offset constant.tag cursor = .ok (constant, next) := by
  cases constant with
  | utf8 payload => exact readText_eq_ok_iff.mpr ⟨payload, rfl, hfits, hpass⟩
  | integer bits | float bits =>
    exact map_eq_ok_iff.mpr ⟨bits, rfl, uint32_eq_ok_iff.mpr hpass⟩
  | long bits | double bits =>
    exact map_eq_ok_iff.mpr ⟨bits, rfl, uint64_eq_ok_iff.mpr hpass⟩
  | classInfo index | string index | methodType index | moduleInfo index | packageInfo index =>
    exact map_eq_ok_iff.mpr ⟨index, rfl, uint16_eq_ok_iff.mpr hpass⟩
  | fieldRef first second | methodRef first second | interfaceMethodRef first second
  | nameAndType first second | dynamic first second | invokeDynamic first second =>
    exact readPair_eq_ok_iff.mpr ⟨(first, second), rfl, hpass⟩
  | methodHandle kind reference =>
    exact readHandle_eq_ok_iff.mpr ⟨(kind, reference), rfl, hpass⟩

/-- Reading a constant undoes writing it, and accepts nothing else. -/
theorem reads_read : Reads read write Fits := by
  intro cursor constant next
  unfold read
  constructor
  · intro h
    split at h
    · cases h
    · rename_i tag middle htag
      obtain ⟨rfl, hfits, hbody⟩ := readBody_sound h
      exact ⟨hfits, Cursor.passes_cons_iff.mpr ⟨middle, uint8_eq_ok_iff.mp htag, hbody⟩⟩
  · rintro ⟨hfits, hpass⟩
    obtain ⟨middle, htag, hbody⟩ := Cursor.passes_cons_iff.mp hpass
    rw [uint8_eq_ok_iff.mpr htag]
    exact readBody_complete hfits hbody

end Constant

namespace Pool

variable {pool : Pool} {constants : List Constant}

/-- Slot 0 and then the slots of these constants in order. -/
def Holds (pool : Pool) (constants : List Constant) : Prop :=
  pool.slots.toList = none :: constants.flatMap slotsOf

def Fits (pool : Pool) : Prop :=
  pool.slots.size < 65536 ∧ ∃ constants, pool.Holds constants ∧ ∀ c ∈ constants, c.Fits

theorem flatMap_writeSlot (constant : Constant) :
    (slotsOf constant).flatMap writeSlot = constant.write := by
  unfold slotsOf
  split <;> simp [writeSlot]

theorem Holds.write_eq (h : pool.Holds constants) :
    pool.write = Bytes.ofUInt16 pool.count ++ constants.flatMap Constant.write := by
  rw [write, h, List.drop_one, List.tail_cons, List.flatMap_assoc]
  simp only [flatMap_writeSlot]

theorem Holds.size_eq (h : pool.Holds constants) :
    pool.slots.size = (constants.flatMap slotsOf).length + 1 := by
  rw [← Array.length_toList, h, List.length_cons]

theorem length_slotsOf_pos (constant : Constant) : 0 < (slotsOf constant).length := by
  unfold slotsOf
  split <;> simp

/-- One constant fills its slots, and the constants after it the rest. -/
theorem readSlots_succ_eq_ok_iff {missing : Nat} {slots filled : Array Slot}
    {cursor next : Cursor} :
    readSlots (missing + 1) slots cursor = .ok (filled, next) ↔
      ∃ constant middle rest, Constant.read cursor = .ok (constant, middle) ∧
        (slotsOf constant).length + rest = missing + 1 ∧
        readSlots rest (slots ++ (slotsOf constant).toArray) middle = .ok (filled, next) := by
  simp only [readSlots]
  cases hread : Constant.read cursor with
  | error fault => simp
  | ok found =>
    obtain ⟨constant, middle⟩ := found
    by_cases hwide : constant.isWide
    · have hslots : slotsOf constant = [some constant, none] := if_pos hwide
      have hfilled : (slots.push (some constant)).push none =
          slots ++ (slotsOf constant).toArray := by
        rw [hslots]
        rfl
      simp only [hwide, if_true]
      cases missing with
      | zero =>
        constructor
        · intro h
          cases h
        · rintro ⟨_, _, rest, hsame, hlength, _⟩
          cases hsame
          rw [hslots, List.length_cons, List.length_singleton] at hlength
          omega
      | succ missing =>
        simp only [hfilled]
        constructor
        · intro h
          refine ⟨constant, middle, missing, rfl, ?_, h⟩
          simp only [hslots, List.length_cons, List.length_nil]
          omega
        · rintro ⟨_, _, rest, hsame, hlength, h⟩
          cases hsame
          rw [hslots, List.length_cons, List.length_singleton] at hlength
          obtain rfl : rest = missing := by omega
          exact h
    · have hslots : slotsOf constant = [some constant] := if_neg hwide
      have hfilled : slots.push (some constant) = slots ++ (slotsOf constant).toArray := by
        rw [hslots]
        rfl
      simp only [hwide, if_false, hfilled, Bool.false_eq_true]
      constructor
      · intro h
        refine ⟨constant, middle, missing, rfl, ?_, h⟩
        simp only [hslots, List.length_cons, List.length_nil]
        omega
      · rintro ⟨_, _, rest, hsame, hlength, h⟩
        cases hsame
        rw [hslots, List.length_singleton] at hlength
        obtain rfl : rest = missing := by omega
        exact h

/-- The slots that are filled are those of the constants that stand in the bytes. -/
theorem readSlots_eq_ok_iff {missing : Nat} {slots filled : Array Slot} {cursor next : Cursor} :
    readSlots missing slots cursor = .ok (filled, next) ↔
      ∃ constants : List Constant, (constants.flatMap slotsOf).length = missing ∧
        filled.toList = slots.toList ++ constants.flatMap slotsOf ∧ (∀ c ∈ constants, c.Fits) ∧
        cursor.Passes (constants.flatMap Constant.write) next := by
  induction missing using Nat.strongRecOn generalizing slots cursor with
  | _ missing ih =>
    constructor
    · intro h
      cases missing with
      | zero =>
        cases h
        exact ⟨[], rfl, by simp, by simp, Cursor.passes_nil_iff.mpr rfl⟩
      | succ missing =>
        obtain ⟨constant, middle, rest, hread, hmissing, h⟩ := readSlots_succ_eq_ok_iff.mp h
        have hpos := length_slotsOf_pos constant
        obtain ⟨constants, hlength, hfilled, hmore, hpasses⟩ := (ih rest (by omega)).mp h
        obtain ⟨hfits, hpass⟩ := (Constant.reads_read _ _ _).mp hread
        refine ⟨constant :: constants, ?_, ?_, ?_, ?_⟩
        · rw [List.flatMap_cons, List.length_append, hlength, hmissing]
        · simpa using hfilled
        · exact List.forall_mem_cons.mpr ⟨hfits, hmore⟩
        · exact Cursor.passes_append_iff.mpr ⟨middle, hpass, hpasses⟩
    · rintro ⟨constants, hlength, hfilled, hfits, hpasses⟩
      cases constants with
      | nil =>
        obtain rfl : 0 = missing := hlength
        obtain rfl : filled = slots := Array.ext' (by simpa using hfilled)
        obtain rfl := Cursor.passes_nil_iff.mp hpasses
        rfl
      | cons constant constants =>
        obtain ⟨hfit, hmore⟩ := List.forall_mem_cons.mp hfits
        obtain ⟨middle, hpass, hpasses⟩ := Cursor.passes_append_iff.mp hpasses
        rw [List.flatMap_cons, List.length_append] at hlength
        have hpos := length_slotsOf_pos constant
        obtain ⟨missing, rfl⟩ := Nat.exists_eq_add_of_lt (show 0 < missing by omega)
        rw [Nat.zero_add] at hlength ih ⊢
        refine readSlots_succ_eq_ok_iff.mpr ⟨constant, middle, _,
          (Constant.reads_read _ _ _).mpr ⟨hfit, hpass⟩, hlength, ?_⟩
        exact (ih _ (by omega)).mpr ⟨constants, rfl, by simpa using hfilled, hmore, hpasses⟩

end Pool

end JarText
