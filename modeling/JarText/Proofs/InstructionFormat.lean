import JarText.Bytes.Lemmas
import JarText.Code.Instruction

/-!
# The format of instructions

`Instruction.WellFormed` says how an instruction of the format is made up: its width where the
opcode fixes it, and otherwise the parts of its operands. The length that is computed for the
operands in words of the machine is the length of this format (`wellFormed_iff_operandLength?`).
-/

set_option autoImplicit false

namespace JarText

def Bytes.ofInt32 (n : Int32) : Bytes := Bytes.ofUInt32 n.toUInt32

@[simp] theorem Bytes.length_ofInt32 (n : Int32) : (Bytes.ofInt32 n).length = 4 := by
  simp [Bytes.ofInt32]

/-! ## Opcodes -/

namespace Opcode

def tableSwitch : UInt8 := 0xAA
def lookupSwitch : UInt8 := 0xAB
def wide : UInt8 := 0xC4

/-- The opcodes that do not fix the number of their operand bytes. -/
def varying : List UInt8 := [tableSwitch, lookupSwitch, wide]

/-- The last assigned opcode. There is none before it that is not assigned. -/
def last : UInt8 := 0xC9

def ofVariable : List UInt8 :=
  [0x15, 0x16, 0x17, 0x18, 0x19, 0x36, 0x37, 0x38, 0x39, 0x3A, 0xA9]

/-- One operand byte: a number, a constant, a variable or an element type. -/
def oneByte : List UInt8 := [0x10, 0x12, 0xBC] ++ ofVariable

/-- Two operand bytes: a number, a constant, an increment, a branch, a member or a class. -/
def twoBytes : List UInt8 :=
  [0x11, 0x13, 0x14, 0x84, 0xC6, 0xC7] ++ (List.range' 0x99 16).map UInt8.ofNat
    ++ (List.range' 0xB2 7).map UInt8.ofNat ++ [0xBB, 0xBD, 0xC0, 0xC1]

/-- Four operand bytes: an interface method, a call site or a long branch. -/
def fourBytes : List UInt8 := [0xB9, 0xBA, 0xC8, 0xC9]

/-- The operand bytes of an opcode that fixes their number. -/
def operandWidth (opcode : UInt8) : Nat :=
  if opcode ∈ oneByte then 1
  else if opcode ∈ twoBytes then 2
  else if opcode = 0xC5 then 3
  else if opcode ∈ fourBytes then 4
  else 0

theorem layout?_eq (opcode : UInt8) : layout? opcode =
    if opcode = tableSwitch then some .tableSwitch
    else if opcode = lookupSwitch then some .lookupSwitch
    else if opcode = wide then some .wide
    else if opcode ≤ last then some (.fixed (operandWidth opcode))
    else none := by
  revert opcode
  decide +kernel

theorem isWidened_iff (opcode : UInt8) : isWidened opcode = true ↔ opcode ∈ ofVariable := by
  revert opcode
  decide +kernel

theorem layout?_eq_none_iff (opcode : UInt8) : layout? opcode = none ↔ last < opcode := by
  revert opcode
  decide +kernel

theorem operandWidth_le (opcode : UInt8) : operandWidth opcode ≤ 4 := by
  unfold operandWidth
  split_ifs <;> decide

end Opcode

namespace Instruction

/-- The bytes between an opcode and the next multiple of four. -/
structure IsPadding (offset : Nat) (pad : Bytes) : Prop where
  short : pad.length < 4
  aligned : (offset + 1 + pad.length) % 4 = 0

/-- The instructions of the format. -/
inductive WellFormed : Instruction → Prop where
  | plain {offset : Nat} {opcode : UInt8} {operands : Bytes} (assigned : opcode ≤ Opcode.last)
      (single : opcode ∉ Opcode.varying)
      (length_eq : operands.length = Opcode.operandWidth opcode) :
      WellFormed ⟨offset, opcode, operands⟩
  | wideIncrement {offset : Nat} {rest : Bytes} (length_eq : (Opcode.iinc :: rest).length = 5) :
      WellFormed ⟨offset, Opcode.wide, Opcode.iinc :: rest⟩
  | wideVariable {offset : Nat} {target : UInt8} {rest : Bytes}
      (modifies : target ∈ Opcode.ofVariable) (length_eq : (target :: rest).length = 3) :
      WellFormed ⟨offset, Opcode.wide, target :: rest⟩
  | tableSwitch {offset : Nat} {pad table : Bytes} {default low high : Int32}
      (padding : IsPadding offset pad) (bounds : low ≤ high)
      (length_eq : (table.length : Int) = 4 * (high.toInt - low.toInt + 1)) :
      WellFormed ⟨offset, Opcode.tableSwitch, pad ++ (Bytes.ofInt32 default
        ++ (Bytes.ofInt32 low ++ (Bytes.ofInt32 high ++ table)))⟩
  | lookupSwitch {offset : Nat} {pad table : Bytes} {default pairs : Int32}
      (padding : IsPadding offset pad) (bound : 0 ≤ pairs)
      (length_eq : (table.length : Int) = 8 * pairs.toInt) :
      WellFormed ⟨offset, Opcode.lookupSwitch, pad ++ (Bytes.ofInt32 default
        ++ (Bytes.ofInt32 pairs ++ table))⟩

/-! ## Words -/

section Words

variable {bytes front back : Bytes} {position : Nat} {n : Int32}

theorem ofInt32_value {word : Bytes} (h : word.length = 4) :
    Bytes.ofInt32 (Int32.ofNat (Bytes.value word)) = word := by
  have hlt : Bytes.value word < 2 ^ 32 := by
    have hlt := Bytes.value_lt word
    rw [h] at hlt
    exact hlt
  have hback := Bytes.bigEndian_value word
  rw [h] at hback
  rw [Bytes.ofInt32, Int32.toUInt32_ofNat', Bytes.ofUInt32, UInt32.toNat_ofNat_of_lt' hlt, hback]

theorem value_ofInt32 (n : Int32) : Int32.ofNat (Bytes.value (Bytes.ofInt32 n)) = n := by
  have hvalue : Bytes.value (Bytes.ofInt32 n) = n.toUInt32.toNat := Bytes.value_ofUInt32 n.toUInt32
  have hback : (Int32.ofNat n.toUInt32.toNat).toUInt32 = n.toUInt32 := by
    rw [Int32.toUInt32_ofNat', UInt32.ofNat_toNat]
  rw [hvalue, ← Int32.toInt32_toUInt32 (Int32.ofNat _), hback, Int32.toInt32_toUInt32]

/-- A word that is read stands there. -/
theorem drop_eq_of_int32? (h : int32? bytes position = some n) :
    bytes.drop position = Bytes.ofInt32 n ++ bytes.drop (position + 4) := by
  unfold int32? at h
  simp only at h
  split at h
  · rename_i hlength
    obtain rfl := Option.some.inj h
    rw [ofInt32_value hlength, ← List.drop_drop, List.take_append_drop]
  · cases h

theorem int32?_append_ofInt32 (h : front.length = position) :
    int32? (front ++ (Bytes.ofInt32 n ++ back)) position = some n := by
  unfold int32?
  subst h
  have hword : (Bytes.ofInt32 n ++ back).take 4 = Bytes.ofInt32 n := by
    rw [← Bytes.length_ofInt32 n, List.take_left]
  simp only [List.drop_left, hword, Bytes.length_ofInt32, value_ofInt32, if_true]

/-- A word is read from the front of a longer byte string as well. -/
theorem int32?_append (h : position + 4 ≤ front.length) :
    int32? (front ++ back) position = int32? front position := by
  unfold int32?
  rw [List.drop_append_of_le_length (by omega), List.take_append_of_le_length]
  rw [List.length_drop]
  omega

theorem exists_int32? (h : position + 4 ≤ bytes.length) : ∃ n, int32? bytes position = some n := by
  unfold int32?
  refine ⟨_, if_pos ?_⟩
  rw [List.length_take, List.length_drop]
  omega

end Words

/-! ## Lengths in words of the machine -/

section Lengths

variable {offset : Nat} {pad : Bytes} {high low pairs : Int32}

theorem isPadding_iff : IsPadding offset pad ↔ pad.length = padding offset := by
  unfold padding
  constructor
  · rintro ⟨hshort, haligned⟩
    omega
  · intro h
    constructor <;> omega

theorem padding_lt (offset : Nat) : padding offset < 4 := by
  unfold padding
  omega

/-- The bounds of a table are subtracted without overflow, whatever they are. -/
theorem toInt_difference (high low : Int32) :
    (high.toInt64 - low.toInt64).toInt = high.toInt - low.toInt := by
  have hhigh := Int32.toInt_lt high
  have hhigh' := Int32.le_toInt high
  have hlow := Int32.toInt_lt low
  have hlow' := Int32.le_toInt low
  rw [Int64.toInt_sub, Int32.toInt_toInt64, Int32.toInt_toInt64]
  exact Int.bmod_eq_of_le (by omega) (by omega)

theorem toInt_entries (high low : Int32) :
    (high.toInt64 - low.toInt64 + 1).toInt = high.toInt - low.toInt + 1 := by
  have hhigh := Int32.toInt_lt high
  have hhigh' := Int32.le_toInt high
  have hlow := Int32.toInt_lt low
  have hlow' := Int32.le_toInt low
  rw [Int64.toInt_add, toInt_difference]
  exact Int.bmod_eq_of_le (by simp; omega) (by simp; omega)

/-- The entries of a table are counted without overflow. -/
theorem toNat_tableEntries (h : low ≤ high) :
    ((tableEntries high low).toNat : Int) = high.toInt - low.toInt + 1 := by
  have hle := Int32.le_iff_toInt_le.mp h
  have hsum := toInt_entries high low
  have hnonneg : 0 ≤ high.toInt64 - low.toInt64 + 1 := by
    rw [Int64.le_iff_toInt_le, hsum, Int64.toInt_zero]
    omega
  rw [tableEntries, Int64.toNat_toUInt64_of_le hnonneg, Int64.cast_toNatClampNeg _ hnonneg, hsum]

theorem toNat_pairs (h : 0 ≤ pairs) : (pairs.toInt64.toUInt64.toNat : Int) = pairs.toInt := by
  have hnonneg : 0 ≤ pairs.toInt64 := by
    rw [Int64.le_iff_toInt_le, Int32.toInt_toInt64, Int64.toInt_zero, ← Int32.toInt_zero]
    exact Int32.le_iff_toInt_le.mp h
  rw [Int64.toNat_toUInt64_of_le hnonneg, Int64.cast_toNatClampNeg _ hnonneg, Int32.toInt_toInt64]

theorem toNat_tableLength (offset : Nat) (h : low ≤ high) :
    ((UInt64.ofNat (padding offset) + (12 + tableEntries high low * 4)).toNat : Int) =
      padding offset + 12 + 4 * (high.toInt - low.toInt + 1) := by
  have hpad := padding_lt offset
  have hentries := toNat_tableEntries h
  have hhigh := Int32.toInt_lt high
  have hlow := Int32.le_toInt low
  simp only [UInt64.toNat_add, UInt64.toNat_mul, UInt64.toNat_ofNat', UInt64.toNat_ofNat]
  omega

theorem toNat_lookupLength (offset : Nat) (h : 0 ≤ pairs) :
    ((UInt64.ofNat (padding offset) + (8 + pairs.toInt64.toUInt64 * 8)).toNat : Int) =
      padding offset + 8 + 8 * pairs.toInt := by
  have hpad := padding_lt offset
  have hpairs := toNat_pairs h
  have hlt := Int32.toInt_lt pairs
  simp only [UInt64.toNat_add, UInt64.toNat_mul, UInt64.toNat_ofNat', UInt64.toNat_ofNat]
  omega

end Lengths

/-! ## Operands -/

section Operands

variable {total offset : Nat} {opcode : UInt8} {operands tail rest : Bytes} {length : UInt64}

theorem operandLength?_plain_eq_ok_iff (single : opcode ∉ Opcode.varying) :
    operandLength? total offset opcode tail = .ok length ↔
      opcode ≤ Opcode.last ∧ length = UInt64.ofNat (Opcode.operandWidth opcode) := by
  simp only [Opcode.varying, List.mem_cons, List.not_mem_nil, or_false, not_or] at single
  obtain ⟨htable, hlookup, hwide⟩ := single
  have hlayout := Opcode.layout?_eq opcode
  rw [if_neg htable, if_neg hlookup, if_neg hwide] at hlayout
  by_cases hassigned : opcode ≤ Opcode.last
  · rw [if_pos hassigned] at hlayout
    simp only [operandLength?, hlayout, Except.ok.injEq, hassigned, true_and, eq_comm]
  · rw [if_neg hassigned] at hlayout
    simp only [operandLength?, hlayout, reduceCtorEq, hassigned, false_and]

theorem operandLength?_wide_eq_ok_iff :
    operandLength? total offset Opcode.wide tail = .ok length ↔
      ∃ target after, tail = target :: after ∧
        (target = Opcode.iinc ∧ length = 5 ∨ target ∈ Opcode.ofVariable ∧ length = 3) := by
  have hlayout : Opcode.layout? Opcode.wide = some .wide := by decide
  have hiinc : Opcode.iinc ∉ Opcode.ofVariable := by decide
  cases tail with
  | nil => simp [operandLength?, hlayout]
  | cons target after =>
    simp only [operandLength?, hlayout, List.cons.injEq]
    by_cases htarget : target = Opcode.iinc
    · subst htarget
      simp [hiinc, eq_comm]
    · by_cases hvariable : target ∈ Opcode.ofVariable
      · have hwidened := (Opcode.isWidened_iff target).mpr hvariable
        simp [htarget, hwidened, hvariable, eq_comm]
      · have hwidened : ¬ Opcode.isWidened target = true :=
          fun h => hvariable ((Opcode.isWidened_iff target).mp h)
        simp [htarget, hwidened, hvariable]

theorem operandLength?_tableSwitch_eq_ok_iff :
    operandLength? total offset Opcode.tableSwitch tail = .ok length ↔
      ∃ low high, int32? tail (padding offset + 4) = some low ∧
        int32? tail (padding offset + 8) = some high ∧ low ≤ high ∧
        length = UInt64.ofNat (padding offset) + (12 + tableEntries high low * 4) := by
  have hlayout : Opcode.layout? Opcode.tableSwitch = some .tableSwitch := by decide
  simp only [operandLength?, hlayout]
  cases int32? tail (padding offset + 4) with
  | none => simp
  | some low =>
    cases int32? tail (padding offset + 8) with
    | none => simp
    | some high =>
      by_cases hbounds : low ≤ high
      · have hlt : ¬ high < low := Int32.not_lt.mpr hbounds
        simp [hlt, hbounds, eq_comm]
      · have hlt : high < low := Int32.not_le.mp hbounds
        simp [hlt, hbounds]

theorem operandLength?_lookupSwitch_eq_ok_iff :
    operandLength? total offset Opcode.lookupSwitch tail = .ok length ↔
      ∃ pairs, int32? tail (padding offset + 4) = some pairs ∧ 0 ≤ pairs ∧
        length = UInt64.ofNat (padding offset) + (8 + pairs.toInt64.toUInt64 * 8) := by
  have hlayout : Opcode.layout? Opcode.lookupSwitch = some .lookupSwitch := by decide
  simp only [operandLength?, hlayout]
  cases int32? tail (padding offset + 4) with
  | none => simp
  | some pairs =>
    by_cases hbound : 0 ≤ pairs
    · have hlt : ¬ pairs < 0 := Int32.not_lt.mpr hbound
      simp [hlt, hbound, eq_comm]
    · have hlt : pairs < 0 := Int32.not_le.mp hbound
      simp [hlt, hbound]

theorem operandLength?_of_wellFormed (total : Nat) (rest : Bytes)
    (h : WellFormed ⟨offset, opcode, operands⟩) :
    ∃ length, operandLength? total offset opcode (operands ++ rest) = .ok length ∧
      operands.length = length.toNat := by
  cases h with
  | plain assigned single length_eq =>
    refine ⟨_, (operandLength?_plain_eq_ok_iff single).mpr ⟨assigned, rfl⟩, ?_⟩
    rw [length_eq, UInt64.toNat_ofNat_of_lt']
    exact Nat.lt_of_le_of_lt (Opcode.operandWidth_le opcode) (by decide)
  | wideIncrement length_eq =>
    exact ⟨5, operandLength?_wide_eq_ok_iff.mpr ⟨_, _, rfl, .inl ⟨rfl, rfl⟩⟩, length_eq⟩
  | wideVariable modifies length_eq =>
    exact ⟨3, operandLength?_wide_eq_ok_iff.mpr ⟨_, _, rfl, .inr ⟨modifies, rfl⟩⟩, length_eq⟩
  | @tableSwitch _ pad table default low high padded bounds length_eq =>
    have hpad := isPadding_iff.mp padded
    have hlength := toNat_tableLength offset bounds
    have hlow := @int32?_append_ofInt32 (pad ++ Bytes.ofInt32 default)
      (Bytes.ofInt32 high ++ table ++ rest) _ low rfl
    have hhigh := @int32?_append_ofInt32 (pad ++ Bytes.ofInt32 default ++ Bytes.ofInt32 low)
      (table ++ rest) _ high rfl
    simp only [List.append_assoc, List.length_append, Bytes.length_ofInt32, hpad] at hlow hhigh
    refine ⟨_, operandLength?_tableSwitch_eq_ok_iff.mpr ⟨low, high, ?_, ?_, bounds, rfl⟩, ?_⟩
    · simpa only [List.append_assoc] using hlow
    · simpa only [List.append_assoc] using hhigh
    · simp only [List.length_append, Bytes.length_ofInt32]
      omega
  | @lookupSwitch _ pad table default pairs padded bound length_eq =>
    have hpad := isPadding_iff.mp padded
    have hlength := toNat_lookupLength offset bound
    have hpairs := @int32?_append_ofInt32 (pad ++ Bytes.ofInt32 default) (table ++ rest) _ pairs rfl
    simp only [List.append_assoc, List.length_append, Bytes.length_ofInt32, hpad] at hpairs
    refine ⟨_, operandLength?_lookupSwitch_eq_ok_iff.mpr ⟨pairs, ?_, bound, rfl⟩, ?_⟩
    · simpa only [List.append_assoc] using hpairs
    · simp only [List.length_append, Bytes.length_ofInt32]
      omega

/-- Operands that hold a word after their padding. -/
theorem exists_padding (h : padding offset + 4 ≤ operands.length) :
    ∃ pad default, IsPadding offset pad ∧
      operands = pad ++ (Bytes.ofInt32 default ++ operands.drop (padding offset + 4)) := by
  obtain ⟨default, hdefault⟩ := exists_int32? h
  refine ⟨operands.take (padding offset), default, isPadding_iff.mpr ?_, ?_⟩
  · rw [List.length_take]
    omega
  · rw [← drop_eq_of_int32? hdefault, List.take_append_drop]

theorem wellFormed_of_operandLength?
    (h : operandLength? total offset opcode (operands ++ rest) = .ok length)
    (hlength : operands.length = length.toNat) : WellFormed ⟨offset, opcode, operands⟩ := by
  by_cases hplain : opcode ∉ Opcode.varying
  · obtain ⟨hassigned, rfl⟩ := (operandLength?_plain_eq_ok_iff hplain).mp h
    refine .plain hassigned hplain ?_
    rw [hlength, UInt64.toNat_ofNat_of_lt']
    exact Nat.lt_of_le_of_lt (Opcode.operandWidth_le opcode) (by decide)
  · simp only [Opcode.varying, not_not, List.mem_cons, List.not_mem_nil, or_false] at hplain
    rcases hplain with rfl | rfl | rfl
    · obtain ⟨low, high, hlow, hhigh, hbounds, rfl⟩ := operandLength?_tableSwitch_eq_ok_iff.mp h
      have hnat := toNat_tableLength offset hbounds
      have hle := Int32.le_iff_toInt_le.mp hbounds
      obtain ⟨pad, default, hpad, hoperands⟩ :=
        @exists_padding offset operands (by omega)
      rw [int32?_append (by omega)] at hlow hhigh
      rw [drop_eq_of_int32? hlow, drop_eq_of_int32? hhigh] at hoperands
      rw [hoperands]
      refine .tableSwitch hpad hbounds ?_
      rw [List.length_drop]
      omega
    · obtain ⟨pairs, hpairs, hbound, rfl⟩ := operandLength?_lookupSwitch_eq_ok_iff.mp h
      have hnat := toNat_lookupLength offset hbound
      have hle := Int32.le_iff_toInt_le.mp hbound
      rw [Int32.toInt_zero] at hle
      obtain ⟨pad, default, hpad, hoperands⟩ :=
        @exists_padding offset operands (by omega)
      rw [int32?_append (by omega)] at hpairs
      rw [drop_eq_of_int32? hpairs] at hoperands
      rw [hoperands]
      refine .lookupSwitch hpad hbound ?_
      rw [List.length_drop]
      omega
    · obtain ⟨target, after, htail, hform⟩ := operandLength?_wide_eq_ok_iff.mp h
      -- a wide form has operands, and the first of them is the opcode that it modifies
      obtain ⟨operands, rfl⟩ : ∃ operands', operands = target :: operands' := by
        cases operands with
        | nil => rcases hform with ⟨_, rfl⟩ | ⟨_, rfl⟩ <;> cases hlength
        | cons first operands => exact ⟨operands, by rw [(List.cons.inj htail).1]⟩
      rcases hform with ⟨rfl, rfl⟩ | ⟨hvariable, rfl⟩
      · exact .wideIncrement hlength
      · exact .wideVariable hvariable hlength

/-- Operands are those of the format exactly when there are as many as the machine computes. -/
theorem wellFormed_iff_operandLength? (total : Nat) (rest : Bytes) :
    WellFormed ⟨offset, opcode, operands⟩ ↔
      ∃ length, operandLength? total offset opcode (operands ++ rest) = .ok length ∧
        operands.length = length.toNat := by
  constructor
  · exact operandLength?_of_wellFormed total rest
  · rintro ⟨length, h, hlength⟩
    exact wellFormed_of_operandLength? h hlength

end Operands

end Instruction

end JarText
