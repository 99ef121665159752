import JarText.Code.Body
import JarText.Proofs.CodeParts
import JarText.Proofs.Reading

/-!
# Lengths in words of the machine

The numbers that declare the length of a switch can be any that a word holds. `Declares` tells the
length in integers without bound, and the computation in words gives the same: no step of it
overflows, for any numbers (`ExactTable`, `ExactPairs`). So a table that does not fit is told from
a short one, and the operands that are taken lie in the buffer. A length of code is stated in 32
bits, which bounds the offsets.
-/

set_option autoImplicit false

namespace JarText

/-- The number that a byte string denotes in two's complement, most significant byte first. -/
def Bytes.signedValue (bytes : Bytes) : Int :=
  if 2 * value bytes < 256 ^ bytes.length then value bytes
  else (value bytes : Int) - 256 ^ bytes.length

namespace Instruction

/-- The number in two's complement that four bytes at a position denote. -/
def signedAt? (bytes : Bytes) (position : Nat) : Option Int :=
  let word := (bytes.drop position).take 4
  if word.length = 4 then some (Bytes.signedValue word) else none

/-- The operand bytes that an opcode and the bytes after it declare, in integers without bound. -/
inductive Declares (offset : Nat) : (opcode : UInt8) → (tail : Bytes) → (length : Nat) → Prop where
  | plain {opcode : UInt8} {tail : Bytes} (assigned : opcode ≤ Opcode.last)
      (single : opcode ∉ Opcode.varying) : Declares offset opcode tail (Opcode.operandWidth opcode)
  | wideIncrement {rest : Bytes} : Declares offset Opcode.wide (Opcode.iinc :: rest) 5
  | wideVariable {target : UInt8} {rest : Bytes} (modifies : target ∈ Opcode.ofVariable) :
      Declares offset Opcode.wide (target :: rest) 3
  | tableSwitch {tail : Bytes} {low high : Int} {length : Nat}
      (low_eq : signedAt? tail (padding offset + 4) = some low)
      (high_eq : signedAt? tail (padding offset + 8) = some high) (bounds : low ≤ high)
      (length_eq : (length : Int) = padding offset + 12 + 4 * (high - low + 1)) :
      Declares offset Opcode.tableSwitch tail length
  | lookupSwitch {tail : Bytes} {pairs : Int} {length : Nat}
      (pairs_eq : signedAt? tail (padding offset + 4) = some pairs) (bound : 0 ≤ pairs)
      (length_eq : (length : Int) = padding offset + 8 + 8 * pairs) :
      Declares offset Opcode.lookupSwitch tail length

/-- The buffer ends before the operands that are declared, or before the bytes that declare them.
The instruction would take a buffer of `needed` bytes at least. -/
inductive Overruns (total offset : Nat) :
    (opcode : UInt8) → (tail : Bytes) → (needed : Nat) → Prop where
  | declared {opcode : UInt8} {tail : Bytes} {length : Nat}
      (declares : Declares offset opcode tail length) (short : total < offset + 1 + length) :
      Overruns total offset opcode tail (offset + 1 + length)
  | wideTarget : Overruns total offset Opcode.wide [] (offset + 2)
  | tableLow {tail : Bytes} (short : tail.length < padding offset + 8) :
      Overruns total offset Opcode.tableSwitch tail (offset + 1 + padding offset + 8)
  | tableHigh {tail : Bytes} (low : padding offset + 8 ≤ tail.length)
      (short : tail.length < padding offset + 12) :
      Overruns total offset Opcode.tableSwitch tail (offset + 1 + padding offset + 12)
  | lookupPairs {tail : Bytes} (short : tail.length < padding offset + 8) :
      Overruns total offset Opcode.lookupSwitch tail (offset + 1 + padding offset + 8)

/-! ## Each step of the computation -/

/-- The places of the words of a switch. -/
structure ExactPlaces (offset : Nat) : Prop where
  start : (UInt64.ofNat offset + 1).toNat = offset + 1
  rest : ((UInt64.ofNat offset + 1) % 4).toNat = (offset + 1) % 4
  fill : (4 - (UInt64.ofNat offset + 1) % 4).toNat = 4 - (offset + 1) % 4
  pad : ((4 - (UInt64.ofNat offset + 1) % 4) % 4).toNat = padding offset
  base : (UInt64.ofNat offset + 1 + UInt64.ofNat (padding offset)).toNat =
    offset + 1 + padding offset
  word : ∀ field ≤ 8, (UInt64.ofNat offset + 1 + UInt64.ofNat (padding offset)
    + UInt64.ofNat field + 4).toNat = offset + 1 + padding offset + field + 4

/-- The bounds of a table can be any. -/
structure ExactDifference (low high : Int32) : Prop where
  low_widened : low.toInt64.toInt = low.toInt
  high_widened : high.toInt64.toInt = high.toInt
  difference : (high.toInt64 - low.toInt64).toInt = high.toInt - low.toInt
  entries : (high.toInt64 - low.toInt64 + 1).toInt = high.toInt - low.toInt + 1

/-- From the bounds of a table to the end of the instruction. -/
structure ExactTable (offset : Nat) (low high : Int32) : Prop where
  converted : ((tableEntries high low).toNat : Int) = high.toInt - low.toInt + 1
  scaled : ((tableEntries high low * 4).toNat : Int) = 4 * (high.toInt - low.toInt + 1)
  withBounds : ((12 + tableEntries high low * 4).toNat : Int) =
    12 + 4 * (high.toInt - low.toInt + 1)
  padded : ((UInt64.ofNat (padding offset) + (12 + tableEntries high low * 4)).toNat : Int) =
    padding offset + 12 + 4 * (high.toInt - low.toInt + 1)
  stop : ((UInt64.ofNat offset + 1
      + (UInt64.ofNat (padding offset) + (12 + tableEntries high low * 4))).toNat : Int) =
    offset + 1 + (padding offset + 12 + 4 * (high.toInt - low.toInt + 1))

/-- From the number of pairs to the end of the instruction. -/
structure ExactPairs (offset : Nat) (pairs : Int32) : Prop where
  widened : pairs.toInt64.toInt = pairs.toInt
  converted : (pairs.toInt64.toUInt64.toNat : Int) = pairs.toInt
  scaled : ((pairs.toInt64.toUInt64 * 8).toNat : Int) = 8 * pairs.toInt
  withNumber : ((8 + pairs.toInt64.toUInt64 * 8).toNat : Int) = 8 + 8 * pairs.toInt
  padded : ((UInt64.ofNat (padding offset) + (8 + pairs.toInt64.toUInt64 * 8)).toNat : Int) =
    padding offset + 8 + 8 * pairs.toInt
  stop : ((UInt64.ofNat offset + 1
      + (UInt64.ofNat (padding offset) + (8 + pairs.toInt64.toUInt64 * 8))).toNat : Int) =
    offset + 1 + (padding offset + 8 + 8 * pairs.toInt)

section Steps

variable {offset : Nat} {low high pairs : Int32}

theorem exactPlaces (hoffset : offset < 2 ^ 32) : ExactPlaces offset := by
  have hpad := padding_lt offset
  have hstart : (UInt64.ofNat offset + 1).toNat = offset + 1 := by
    simp only [UInt64.toNat_add, UInt64.toNat_ofNat', UInt64.toNat_ofNat]
    omega
  have hrest : ((UInt64.ofNat offset + 1) % 4).toNat = (offset + 1) % 4 := by
    rw [UInt64.toNat_mod, hstart]
    rfl
  have hfill : (4 - (UInt64.ofNat offset + 1) % 4).toNat = 4 - (offset + 1) % 4 := by
    rw [UInt64.toNat_sub_of_le, hrest]
    · rfl
    · rw [UInt64.le_iff_toNat_le, hrest]
      exact Nat.le_of_lt (Nat.mod_lt _ (by decide))
  refine ⟨hstart, hrest, hfill, ?_, ?_, ?_⟩
  · rw [UInt64.toNat_mod, hfill]
    rfl
  · rw [UInt64.toNat_add, hstart, UInt64.toNat_ofNat']
    omega
  · intro field hfield
    simp only [UInt64.toNat_add, UInt64.toNat_ofNat', UInt64.toNat_ofNat]
    omega

theorem exactDifference (low high : Int32) : ExactDifference low high where
  low_widened := Int32.toInt_toInt64 low
  high_widened := Int32.toInt_toInt64 high
  difference := toInt_difference high low
  entries := toInt_entries high low

theorem exactTable (hoffset : offset < 2 ^ 32) (h : low ≤ high) : ExactTable offset low high := by
  have hhigh := Int32.toInt_lt high
  have hlow := Int32.le_toInt low
  have hpad := padding_lt offset
  have hconverted := toNat_tableEntries h
  have hscaled : ((tableEntries high low * 4).toNat : Int) =
      4 * (high.toInt - low.toInt + 1) := by
    simp only [UInt64.toNat_mul, UInt64.toNat_ofNat]
    omega
  have hbounds : ((12 + tableEntries high low * 4).toNat : Int) =
      12 + 4 * (high.toInt - low.toInt + 1) := by
    simp only [UInt64.toNat_add, UInt64.toNat_ofNat, Nat.reducePow, Nat.reduceMod]
    omega
  have hpadded := toNat_tableLength offset h
  refine ⟨hconverted, hscaled, hbounds, hpadded, ?_⟩
  rw [UInt64.toNat_add, (exactPlaces hoffset).start]
  omega

theorem exactPairs (hoffset : offset < 2 ^ 32) (h : 0 ≤ pairs) : ExactPairs offset pairs := by
  have hlt := Int32.toInt_lt pairs
  have hpad := padding_lt offset
  have hconverted := toNat_pairs h
  have hscaled : ((pairs.toInt64.toUInt64 * 8).toNat : Int) = 8 * pairs.toInt := by
    simp only [UInt64.toNat_mul, UInt64.toNat_ofNat]
    omega
  have hnumber : ((8 + pairs.toInt64.toUInt64 * 8).toNat : Int) = 8 + 8 * pairs.toInt := by
    simp only [UInt64.toNat_add, UInt64.toNat_ofNat, Nat.reducePow, Nat.reduceMod]
    omega
  have hpadded := toNat_lookupLength offset h
  refine ⟨Int32.toInt_toInt64 pairs, hconverted, hscaled, hnumber, hpadded, ?_⟩
  rw [UInt64.toNat_add, (exactPlaces hoffset).start]
  omega

end Steps

/-! ## Words that are loaded -/

section Loads

variable {bytes : Bytes} {position : Nat}

theorem toInt_ofNat_value {word : Bytes} (h : word.length = 4) :
    (Int32.ofNat (Bytes.value word)).toInt = Bytes.signedValue word := by
  have hlt := Bytes.value_lt word
  rw [Int32.toInt_ofNat', Int.bmod_def, Bytes.signedValue]
  rw [h] at hlt ⊢
  have hsize : Int32.size = 2 ^ 32 := rfl
  rw [hsize]
  split <;> split <;> omega

/-- A word is loaded as the number that its bytes denote. -/
theorem toInt_int32? (bytes : Bytes) (position : Nat) :
    (int32? bytes position).map Int32.toInt = signedAt? bytes position := by
  unfold int32? signedAt?
  simp only
  split
  · rename_i hlength
    rw [Option.map_some, toInt_ofNat_value hlength]
  · rfl

theorem signedAt?_eq_some_iff {n : Int} : signedAt? bytes position = some n ↔
    ∃ word, int32? bytes position = some word ∧ word.toInt = n := by
  rw [← toInt_int32?, Option.map_eq_some_iff]

theorem int32?_eq_none (h : bytes.length < position + 4) : int32? bytes position = none := by
  unfold int32?
  refine if_neg ?_
  rw [List.length_take, List.length_drop]
  omega

end Loads

/-! ## One instruction -/

section Next

variable {total offset length needed : Nat} {opcode : UInt8} {tail rest : Bytes}
  {instruction : Instruction}

/-- The length that is computed in words is the one that is declared. -/
theorem declares_iff_operandLength? (total : Nat) :
    Declares offset opcode tail length ↔
      ∃ word, operandLength? total offset opcode tail = .ok word ∧ word.toNat = length := by
  constructor
  · intro h
    cases h with
    | plain assigned single =>
      refine ⟨_, (operandLength?_plain_eq_ok_iff single).mpr ⟨assigned, rfl⟩, ?_⟩
      exact UInt64.toNat_ofNat_of_lt'
        (Nat.lt_of_le_of_lt (Opcode.operandWidth_le opcode) (by decide))
    | wideIncrement =>
      exact ⟨5, operandLength?_wide_eq_ok_iff.mpr ⟨_, _, rfl, .inl ⟨rfl, rfl⟩⟩, rfl⟩
    | wideVariable modifies =>
      exact ⟨3, operandLength?_wide_eq_ok_iff.mpr ⟨_, _, rfl, .inr ⟨modifies, rfl⟩⟩, rfl⟩
    | tableSwitch low_eq high_eq bounds length_eq =>
      obtain ⟨low, hlow, rfl⟩ := signedAt?_eq_some_iff.mp low_eq
      obtain ⟨high, hhigh, rfl⟩ := signedAt?_eq_some_iff.mp high_eq
      have hle := Int32.le_iff_toInt_le.mpr bounds
      have hlength := toNat_tableLength offset hle
      exact ⟨_, operandLength?_tableSwitch_eq_ok_iff.mpr ⟨low, high, hlow, hhigh, hle, rfl⟩,
        by omega⟩
    | lookupSwitch pairs_eq bound length_eq =>
      obtain ⟨pairs, hpairs, rfl⟩ := signedAt?_eq_some_iff.mp pairs_eq
      have hle : 0 ≤ pairs := Int32.le_iff_toInt_le.mpr bound
      have hlength := toNat_lookupLength offset hle
      exact ⟨_, operandLength?_lookupSwitch_eq_ok_iff.mpr ⟨pairs, hpairs, hle, rfl⟩, by omega⟩
  · rintro ⟨word, hword, rfl⟩
    by_cases hplain : opcode ∉ Opcode.varying
    · obtain ⟨hassigned, rfl⟩ := (operandLength?_plain_eq_ok_iff hplain).mp hword
      rw [UInt64.toNat_ofNat_of_lt'
        (Nat.lt_of_le_of_lt (Opcode.operandWidth_le opcode) (by decide))]
      exact .plain hassigned hplain
    · simp only [Opcode.varying, not_not, List.mem_cons, List.not_mem_nil, or_false] at hplain
      rcases hplain with rfl | rfl | rfl
      · obtain ⟨low, high, hlow, hhigh, hbounds, rfl⟩ :=
          operandLength?_tableSwitch_eq_ok_iff.mp hword
        exact .tableSwitch (signedAt?_eq_some_iff.mpr ⟨low, hlow, rfl⟩)
          (signedAt?_eq_some_iff.mpr ⟨high, hhigh, rfl⟩) (Int32.le_iff_toInt_le.mp hbounds)
          (toNat_tableLength offset hbounds)
      · obtain ⟨pairs, hpairs, hbound, rfl⟩ := operandLength?_lookupSwitch_eq_ok_iff.mp hword
        exact .lookupSwitch (signedAt?_eq_some_iff.mpr ⟨pairs, hpairs, rfl⟩)
          (Int32.le_iff_toInt_le.mp hbound) (toNat_lookupLength offset hbound)
      · obtain ⟨target, after, rfl, ⟨rfl, rfl⟩ | ⟨hvariable, rfl⟩⟩ :=
          operandLength?_wide_eq_ok_iff.mp hword
        · exact .wideIncrement
        · exact .wideVariable hvariable

/-- What is declared is taken where it fits, and refused with its exact end where it does not. -/
theorem next?_of_declares (hoffset : offset < 2 ^ 63) (htotal : total < 2 ^ 64)
    (h : Declares offset opcode tail length) :
    next? total offset opcode tail =
      if total < offset + 1 + length then
        .error (.malformed offset (.shortCode opcode (offset + 1 + length) total))
      else .ok (⟨offset, opcode, tail.take length⟩, tail.drop length) := by
  obtain ⟨word, hword, rfl⟩ := (declares_iff_operandLength? total).mp h
  simp only [next?, hword, UInt64.lt_iff_toNat_lt, UInt64.toNat_ofNat_of_lt' htotal,
    toNat_stop hoffset hword]

/-- An instruction is taken exactly with the operands that are declared, and in the buffer. -/
theorem next?_eq_ok_iff_declares (hoffset : offset < 2 ^ 63) (htotal : total < 2 ^ 64) :
    next? total offset opcode tail = .ok (instruction, rest) ↔
      ∃ length, Declares offset opcode tail length ∧ offset + 1 + length ≤ total ∧
        instruction = ⟨offset, opcode, tail.take length⟩ ∧ rest = tail.drop length := by
  constructor
  · intro h
    cases hword : operandLength? total offset opcode tail with
    | error fault =>
      simp only [next?, hword] at h
      cases h
    | ok word =>
      have hdeclares := (declares_iff_operandLength? total).mpr ⟨word, hword, rfl⟩
      rw [next?_of_declares hoffset htotal hdeclares] at h
      split at h
      · cases h
      · rename_i hfits
        cases h
        exact ⟨_, hdeclares, Nat.not_lt.mp hfits, rfl, rfl⟩
  · rintro ⟨length, hdeclares, hfits, rfl, rfl⟩
    rw [next?_of_declares hoffset htotal hdeclares, if_neg (Nat.not_lt.mpr hfits)]

theorem Overruns.total_lt (h : Overruns total offset opcode tail needed)
    (htotal : offset + 1 + tail.length = total) : total < needed := by
  cases h with
  | declared declares short => exact short
  | wideTarget =>
    rw [List.length_nil] at htotal
    omega
  | tableLow short => omega
  | tableHigh low short => omega
  | lookupPairs short => omega

/-- An instruction that does not fit is refused as one that takes more bytes than there are. -/
theorem Overruns.next?_eq (h : Overruns total offset opcode tail needed)
    (hoffset : offset < 2 ^ 63) (htotal : total < 2 ^ 64) :
    next? total offset opcode tail =
      .error (.malformed offset (.shortCode opcode needed total)) := by
  have htable : Opcode.layout? Opcode.tableSwitch = some .tableSwitch := by decide
  have hlookup : Opcode.layout? Opcode.lookupSwitch = some .lookupSwitch := by decide
  have hwide : Opcode.layout? Opcode.wide = some .wide := by decide
  cases h with
  | declared declares short => rw [next?_of_declares hoffset htotal declares, if_pos short]
  | wideTarget => simp only [next?, operandLength?, hwide]
  | tableLow short =>
    simp only [next?, operandLength?, htable, @int32?_eq_none tail (padding offset + 4) short]
  | tableHigh low short =>
    obtain ⟨word, hword⟩ := @exists_int32? tail (padding offset + 4) low
    simp only [next?, operandLength?, htable, hword,
      @int32?_eq_none tail (padding offset + 8) short]
  | lookupPairs short =>
    simp only [next?, operandLength?, hlookup, @int32?_eq_none tail (padding offset + 4) short]

/-- What the machine does at an opcode is what integers without bound would do. -/
structure MeasuredExactly (total offset : Nat) (opcode : UInt8) (tail : Bytes) : Prop where
  places : ExactPlaces offset
  loads : ∀ position, (int32? tail position).map Int32.toInt = signedAt? tail position
  difference : ∀ low high, ExactDifference low high
  table : ∀ low high, low ≤ high → ExactTable offset low high
  pairs : ∀ pairs, 0 ≤ pairs → ExactPairs offset pairs
  length : ∀ length, Declares offset opcode tail length ↔
    ∃ word, operandLength? total offset opcode tail = .ok word ∧ word.toNat = length ∧
      (UInt64.ofNat offset + 1 + word).toNat = offset + 1 + length
  taken : ∀ instruction rest, next? total offset opcode tail = .ok (instruction, rest) ↔
    ∃ length, Declares offset opcode tail length ∧ offset + 1 + length ≤ total ∧
      instruction = ⟨offset, opcode, tail.take length⟩ ∧ rest = tail.drop length
  refused : ∀ needed, Overruns total offset opcode tail needed → total < needed ∧
    next? total offset opcode tail = .error (.malformed offset (.shortCode opcode needed total))

theorem measuredExactly (htotal : offset + 1 + tail.length = total) (hsmall : total < 2 ^ 32) :
    MeasuredExactly total offset opcode tail where
  places := exactPlaces (by omega)
  loads := toInt_int32? tail
  difference := exactDifference
  table _ _ hbounds := exactTable (by omega) hbounds
  pairs _ hbound := exactPairs (by omega) hbound
  length length := by
    rw [declares_iff_operandLength? total]
    constructor
    · rintro ⟨word, hword, rfl⟩
      exact ⟨word, hword, rfl, toNat_stop (by omega) hword⟩
    · rintro ⟨word, hword, hlength, _⟩
      exact ⟨word, hword, hlength⟩
  taken _ _ := next?_eq_ok_iff_declares (by omega) (by omega)
  refused needed hoverruns :=
    ⟨hoverruns.total_lt htotal, hoverruns.next?_eq (by omega) (by omega)⟩

end Next

/-! ## A whole buffer -/

section Buffer

variable {code tail : Bytes} {opcode : UInt8} {fault : Fault} {instruction : Instruction}
  {front instructions : List Instruction}

/-- The loop ends at the first instruction that is refused. -/
theorem decode_eq_error_of_next? (hsmall : code.length < 2 ^ 63) (hrow : Row 0 front)
    (hcode : code = encodeAll front ++ opcode :: tail)
    (hnext : next? code.length (encodeAll front).length opcode tail = .error fault) :
    decode code = .error fault := by
  have hlength : code.length = (encodeAll front).length + (tail.length + 1) := by
    rw [hcode, List.length_append, List.length_cons]
  -- an instruction has a byte at least, so that the fuel lasts to the refused one
  obtain ⟨spare, hspare⟩ := Nat.exists_eq_add_of_le (length_le_encodeAll front)
  have hfuel : code.length = front.length + (spare + tail.length + 1) := by omega
  have hrun := @decodeFrom_row 0 front code.length (spare + tail.length + 1) (opcode :: tail) []
    hrow (by rw [← hcode, Nat.zero_add]) hsmall
  rw [← hcode, ← hfuel, Nat.zero_add, decodeFrom, hnext] at hrun
  exact hrun

/-- The instruction stands in the buffer, with the operands that it declares there. -/
structure StandsIn (code : Bytes) (instruction : Instruction) : Prop where
  stop_le : instruction.offset + instruction.size ≤ code.length
  opcode_eq : code[instruction.offset]? = some instruction.opcode
  operands_eq : instruction.operands =
    (code.drop (instruction.offset + 1)).take instruction.operands.length
  declares : Declares instruction.offset instruction.opcode
    (code.drop (instruction.offset + 1)) instruction.operands.length

theorem standsIn_of_decode (hsmall : code.length < 2 ^ 63) (h : decode code = .ok instructions)
    (hmem : instruction ∈ instructions) : StandsIn code instruction := by
  obtain ⟨hrow, hcode⟩ := (decode_eq_ok_iff hsmall).mp h
  obtain ⟨front, back, rfl⟩ := List.append_of_mem hmem
  obtain ⟨_, hoffset, hwell, _⟩ := row_append_iff.mp hrow
  rw [Nat.zero_add] at hoffset
  rw [encodeAll_append, encodeAll_cons] at hcode
  have htail : code.drop (instruction.offset + 1) = instruction.operands ++ encodeAll back := by
    rw [hcode, hoffset, ← List.drop_drop, List.drop_left, List.drop_one, List.tail_cons]
  refine ⟨?_, ?_, ?_, ?_⟩
  · rw [hcode, hoffset, size, List.length_append, List.length_cons, List.length_append]
    omega
  · rw [hcode, hoffset, List.getElem?_append_right (Nat.le_refl _), Nat.sub_self]
    rfl
  · rw [htail, List.take_left]
  · rw [htail, declares_iff_operandLength? code.length]
    obtain ⟨word, hword, hlength⟩ := operandLength?_of_wellFormed code.length (encodeAll back) hwell
    exact ⟨word, hword, hlength.symm⟩

/-- What the machine computes of a buffer's lengths is what the code declares. -/
structure LengthsExact (code : Bytes) : Prop where
  measured : ∀ front opcode tail, code = front ++ opcode :: tail →
    MeasuredExactly code.length front.length opcode tail
  refused : ∀ front opcode tail needed, Row 0 front → code = encodeAll front ++ opcode :: tail →
    Overruns code.length (encodeAll front).length opcode tail needed →
    decode code =
      .error (.malformed (encodeAll front).length (.shortCode opcode needed code.length))
  stands : ∀ instructions, decode code = .ok instructions →
    ∀ instruction ∈ instructions, StandsIn code instruction

theorem lengthsExact (hsmall : code.length ≤ 2 ^ 32 - 1) : LengthsExact code where
  measured front opcode tail hcode := by
    refine measuredExactly ?_ (by omega)
    rw [hcode, List.length_append, List.length_cons]
    omega
  refused front opcode tail needed hrow hcode hoverruns := by
    have hlength := congrArg List.length hcode
    rw [List.length_append, List.length_cons] at hlength
    exact decode_eq_error_of_next? (by omega) hrow hcode
      (hoverruns.next?_eq (by omega) (by omega))
  stands _ h _ hmem := standsIn_of_decode (by omega) h hmem

/-- In a buffer whose length 32 bits can state, every length and every end that the machine computes
is the integer that the code declares, whatever numbers stand in it. So an instruction that does not
fit is refused as too long, and operands that are taken lie in the buffer. -/
theorem lengths_exact_in_words (hsmall : code.length ≤ 2 ^ 32 - 1) :
    (∀ front opcode tail, code = front ++ opcode :: tail →
      MeasuredExactly code.length front.length opcode tail) ∧
    (∀ front opcode tail needed, Row 0 front → code = encodeAll front ++ opcode :: tail →
      Overruns code.length (encodeAll front).length opcode tail needed →
      decode code =
        .error (.malformed (encodeAll front).length (.shortCode opcode needed code.length))) ∧
    ∀ instructions, decode code = .ok instructions →
      ∀ instruction ∈ instructions, StandsIn code instruction := by
  obtain ⟨hmeasured, hrefused, hstands⟩ := lengthsExact hsmall
  exact ⟨hmeasured, hrefused, hstands⟩

/-- A table with an entry for each signed word, in a buffer that ends before its first entry. In 32
bits the number of entries would be zero, and the table would fit. -/
def endlessTable : Bytes :=
  [0xAA, 0, 0, 0, 0, 0, 0, 4, 0x80, 0, 0, 0, 0x7F, 0xFF, 0xFF, 0xFF]

theorem lengths_exact_of_endlessTable :
    endlessTable.length ≤ 2 ^ 32 - 1 ∧
      Declares 0 Opcode.tableSwitch endlessTable.tail (15 + 4 * 2 ^ 32) ∧
      operandLength? 16 0 Opcode.tableSwitch endlessTable.tail = .ok (15 + 4 * 2 ^ 32) ∧
      decode endlessTable =
        .error (.malformed 0 (.shortCode Opcode.tableSwitch (16 + 4 * 2 ^ 32) 16)) ∧
      decode [0x10, 7] = .ok [⟨0, 0x10, [7]⟩] ∧ StandsIn [0x10, 7] ⟨0, 0x10, [7]⟩ := by
  have hsmall : endlessTable.length ≤ 2 ^ 32 - 1 := by decide
  have hdeclares : Declares 0 Opcode.tableSwitch endlessTable.tail (15 + 4 * 2 ^ 32) :=
    @Declares.tableSwitch 0 endlessTable.tail (-2 ^ 31) (2 ^ 31 - 1) _ (by decide +kernel)
      (by decide +kernel) (by decide) (by decide +kernel)
  obtain ⟨hmeasured, hrefused, _⟩ := lengths_exact_in_words hsmall
  obtain ⟨word, hword, hlength, _⟩ :=
    ((hmeasured [] Opcode.tableSwitch endlessTable.tail rfl).length _).mp hdeclares
  have hdecode : decode [0x10, 7] = .ok [⟨0, 0x10, [7]⟩] := by decide +kernel
  refine ⟨hsmall, hdeclares, ?_, ?_, hdecode, ?_⟩
  · obtain rfl : word = 15 + 4 * 2 ^ 32 := UInt64.toNat_inj.mp (hlength.trans (by decide))
    exact hword
  · exact hrefused [] Opcode.tableSwitch endlessTable.tail _ trivial rfl
      (.declared hdeclares (by decide))
  · exact (lengths_exact_in_words (by decide)).2.2 _ hdecode _ (List.mem_singleton.mpr rfl)

end Buffer

end Instruction

/-! ## Bodies -/

namespace CodeBody

/-- A body states the length of its code in 32 bits. -/
theorem length_code_le {info : Bytes} {body : CodeBody} (h : ofInfo info = .ok body) :
    body.code.length ≤ 2 ^ 32 - 1 := by
  unfold ofInfo Reader.runFront at h
  cases hread : read (Cursor.start info) with
  | error fault =>
    rw [hread] at h
    cases h
  | ok found =>
    obtain ⟨body', last⟩ := found
    rw [hread] at h
    cases h
    obtain ⟨_, _, _, hread⟩ := Reader.bind_eq_ok_iff.mp hread
    obtain ⟨_, _, _, hread⟩ := Reader.bind_eq_ok_iff.mp hread
    obtain ⟨length, _, _, hread⟩ := Reader.bind_eq_ok_iff.mp hread
    obtain ⟨code, _, hcode, hread⟩ := Reader.bind_eq_ok_iff.mp hread
    obtain ⟨_, _, _, hread⟩ := Reader.bind_eq_ok_iff.mp hread
    obtain ⟨_, _, _, hread⟩ := Reader.bind_eq_ok_iff.mp hread
    obtain ⟨_, _, _, hread⟩ := Reader.bind_eq_ok_iff.mp hread
    obtain ⟨rfl, _⟩ := Reader.pure_eq_ok_iff.mp hread
    have hlength := (Reader.take_eq_ok_iff.mp hcode).1
    have hlt := length.toNat_lt
    change code.length ≤ 2 ^ 32 - 1
    omega

/-- So the lengths in a body that is read from a class are exact. -/
theorem lengthsExact {info : Bytes} {body : CodeBody} (h : ofInfo info = .ok body) :
    Instruction.LengthsExact body.code :=
  Instruction.lengthsExact (length_code_le h)

end CodeBody

end JarText
