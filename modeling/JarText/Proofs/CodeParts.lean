import JarText.Proofs.CodeRows

/-!
# Parts of code buffers

A row of instructions is read in one way only, so a part from the front of a buffer is decoded
exactly if it ends where an instruction begins. Behind a buffer that takes a multiple of four bytes,
instructions stand as they do at offset 0, since their padding is counted modulo four: all that
changes is the offsets, of the instructions and in a fault. As for rows, buffers have less than 2^63
bytes, two joined ones too.
-/

set_option autoImplicit false

namespace JarText

def Defect.moved (distance : Nat) : Defect → Defect
  | .shortCode opcode needed available =>
    .shortCode opcode (distance + needed) (distance + available)
  | defect => defect

/-- The same fault at an offset that is greater by a distance. -/
def Fault.moved (distance : Nat) : Fault → Fault
  | .malformed offset defect => .malformed (distance + offset) (defect.moved distance)
  | .unknownOpcode opcode offset => .unknownOpcode opcode (distance + offset)
  | fault => fault

namespace Instruction

def moved (distance : Nat) (instruction : Instruction) : Instruction :=
  { instruction with offset := distance + instruction.offset }

variable {offset distance : Nat} {instruction : Instruction}
  {instructions front back others : List Instruction} {code rest : Bytes}

/-! ## Rows -/

theorem length_encodeAll_cons (first : Instruction) (rest : List Instruction) :
    (encodeAll (first :: rest)).length = first.size + (encodeAll rest).length := by
  rw [encodeAll_cons, List.length_cons, List.length_append, size]
  omega

theorem encodeAll_append (front back : List Instruction) :
    encodeAll (front ++ back) = encodeAll front ++ encodeAll back :=
  List.flatMap_append

theorem row_append_iff : Row offset (front ++ back) ↔
    Row offset front ∧ Row (offset + (encodeAll front).length) back := by
  induction front generalizing offset with
  | nil => simp [Row, encodeAll]
  | cons first front ih =>
    rw [List.cons_append, Row, Row, ih, length_encodeAll_cons, Nat.add_assoc, and_assoc, and_assoc]

theorem Row.offset_bounds (h : Row offset instructions) (hmem : instruction ∈ instructions) :
    offset ≤ instruction.offset ∧
      instruction.offset < offset + (encodeAll instructions).length := by
  obtain ⟨front, back, rfl⟩ := List.append_of_mem hmem
  obtain ⟨_, hoffset, _⟩ := row_append_iff.mp h
  rw [encodeAll_append, List.length_append, length_encodeAll_cons, hoffset, size]
  omega

/-- The instructions before a place where a row is cut. -/
theorem Row.filter_offset_lt (h : Row offset (front ++ back)) :
    (front ++ back).filter (·.offset < offset + (encodeAll front).length) = front := by
  obtain ⟨hfront, hback⟩ := row_append_iff.mp h
  rw [List.filter_append, List.filter_eq_self.mpr, List.filter_eq_nil_iff.mpr, List.append_nil]
  · intro instruction hmem
    have hbounds := hback.offset_bounds hmem
    simpa using hbounds.1
  · intro instruction hmem
    simpa using (hfront.offset_bounds hmem).2

/-- A row can be cut before each of its instructions and at its end. -/
theorem Row.exists_cut_iff (h : Row 0 instructions) {place : Nat} :
    (∃ front back, instructions = front ++ back ∧ (encodeAll front).length = place) ↔
      place = (encodeAll instructions).length ∨
        ∃ instruction ∈ instructions, instruction.offset = place := by
  constructor
  · rintro ⟨front, back, rfl, rfl⟩
    cases back with
    | nil => exact .inl (by rw [List.append_nil])
    | cons first back =>
      obtain ⟨_, hoffset, _⟩ := row_append_iff.mp h
      exact .inr ⟨first, by simp, by rw [hoffset, Nat.zero_add]⟩
  · rintro (rfl | ⟨instruction, hmem, rfl⟩)
    · exact ⟨instructions, [], (List.append_nil _).symm, rfl⟩
    · obtain ⟨front, back, rfl⟩ := List.append_of_mem hmem
      obtain ⟨_, hoffset, _⟩ := row_append_iff.mp h
      exact ⟨front, instruction :: back, rfl, by rw [hoffset, Nat.zero_add]⟩

/-- Operands of the format end where the opcode and they themselves say, whatever follows. -/
theorem operands_eq_of_append_eq {opcode : UInt8} {operands operands' rest rest' : Bytes}
    (h : WellFormed ⟨offset, opcode, operands⟩) (h' : WellFormed ⟨offset, opcode, operands'⟩)
    (heq : operands ++ rest = operands' ++ rest') : operands = operands' ∧ rest = rest' := by
  obtain ⟨length, hlength, hoperands⟩ := (wellFormed_iff_operandLength? 0 rest).mp h
  obtain ⟨length', hlength', hoperands'⟩ := (wellFormed_iff_operandLength? 0 rest').mp h'
  rw [heq, hlength'] at hlength
  cases hlength
  exact List.append_inj heq (hoperands.trans hoperands'.symm)

/-- Of two rows in the same bytes, the shorter one is the front of the other. -/
theorem Row.exists_of_encodeAll_eq (h : Row offset instructions) (hfront : Row offset front)
    (heq : encodeAll instructions = encodeAll front ++ rest) :
    ∃ back, instructions = front ++ back := by
  induction front generalizing offset instructions with
  | nil => exact ⟨instructions, rfl⟩
  | cons first front ih =>
    cases instructions with
    | nil => cases heq
    | cons other instructions =>
      obtain ⟨offset', opcode, operands⟩ := first
      obtain ⟨offset'', opcode', operands'⟩ := other
      obtain ⟨rfl, hwell, hrow⟩ := hfront
      obtain ⟨rfl, hwell', hrow'⟩ := h
      rw [encodeAll_cons, encodeAll_cons, List.cons_append, List.append_assoc] at heq
      obtain ⟨rfl, htail⟩ := List.cons.inj heq
      obtain ⟨rfl, hrest⟩ := operands_eq_of_append_eq hwell' hwell htail
      obtain ⟨back, rfl⟩ := ih hrow' hrow hrest
      exact ⟨back, rfl⟩

/-! ## The front of a buffer -/

theorem decode_eq_ok_iff (hcode : code.length < 2 ^ 63) :
    decode code = .ok instructions ↔ Row 0 instructions ∧ code = encodeAll instructions := by
  rw [decode, decodeFrom_eq_ok_iff (Nat.le_refl _) (Nat.zero_add _) hcode]
  simp

theorem decode_take_eq_ok_iff (hcode : code.length < 2 ^ 63)
    (h : decode code = .ok instructions) {count : Nat} (hcount : count ≤ code.length) :
    decode (code.take count) = .ok front ↔
      (count = code.length ∨ ∃ instruction ∈ instructions, instruction.offset = count) ∧
        front = instructions.filter (·.offset < count) := by
  obtain ⟨hrow, rfl⟩ := (decode_eq_ok_iff hcode).mp h
  have hlength : ((encodeAll instructions).take count).length = count :=
    List.length_take_of_le hcount
  rw [decode_eq_ok_iff (by omega), ← hrow.exists_cut_iff]
  constructor
  · rintro ⟨hfront, htake⟩
    have hbytes := List.take_append_drop count (encodeAll instructions)
    rw [htake] at hbytes hlength
    obtain ⟨back, rfl⟩ := hrow.exists_of_encodeAll_eq hfront hbytes.symm
    refine ⟨⟨front, back, rfl, hlength⟩, ?_⟩
    have hfilter := hrow.filter_offset_lt
    rw [Nat.zero_add, hlength] at hfilter
    exact hfilter.symm
  · rintro ⟨⟨front, back, rfl, rfl⟩, rfl⟩
    have hfilter := hrow.filter_offset_lt
    rw [Nat.zero_add] at hfilter
    rw [hfilter, encodeAll_append, List.take_left]
    exact ⟨(row_append_iff.mp hrow).1, rfl⟩

/-! ## Moved instructions -/

section Moved

variable {total fuel fuel' : Nat} {opcode : UInt8} {tail bytes : Bytes}
  {done done' : List Instruction}

theorem padding_moved (h : distance % 4 = 0) : padding (distance + offset) = padding offset := by
  unfold padding
  omega

theorem operandLength?_moved (h : distance % 4 = 0) :
    operandLength? (distance + total) (distance + offset) opcode tail =
      (operandLength? total offset opcode tail).mapError (Fault.moved distance) := by
  unfold operandLength?
  simp only [padding_moved h, Nat.add_assoc]
  split
  · rfl
  · rfl
  · cases tail with
    | nil => rfl
    | cons target after =>
      simp only
      split_ifs <;> rfl
  · cases int32? tail (padding offset + 4) with
    | none => rfl
    | some low =>
      cases int32? tail (padding offset + 8) with
      | none => rfl
      | some high =>
        simp only
        split_ifs <;> rfl
  · cases int32? tail (padding offset + 4) with
    | none => rfl
    | some pairs =>
      simp only
      split_ifs <;> rfl

theorem next?_moved (h : distance % 4 = 0) (hoffset : offset ≤ total)
    (hsmall : distance + total < 2 ^ 63) :
    next? (distance + total) (distance + offset) opcode tail =
      ((next? total offset opcode tail).map fun found => (found.1.moved distance, found.2)).mapError
        (Fault.moved distance) := by
  have hlength_moved := @operandLength?_moved offset distance total opcode tail h
  unfold next?
  cases hlength : operandLength? total offset opcode tail with
  | error fault =>
    rw [hlength] at hlength_moved
    simp only [hlength, hlength_moved]
    rfl
  | ok length =>
    rw [hlength] at hlength_moved
    have hstop := toNat_stop (show offset < 2 ^ 63 by omega) hlength
    have hstop_moved := toNat_stop (show distance + offset < 2 ^ 63 by omega) hlength_moved
    have htotal : (UInt64.ofNat total).toNat = total :=
      UInt64.toNat_ofNat_of_lt' (Nat.lt_trans (by omega : total < 2 ^ 63) (by decide))
    have htotal_moved : (UInt64.ofNat (distance + total)).toNat = distance + total :=
      UInt64.toNat_ofNat_of_lt' (Nat.lt_trans hsmall (by decide))
    simp only [hlength, hlength_moved, Except.mapError, UInt64.lt_iff_toNat_lt, hstop, hstop_moved,
      htotal, htotal_moved]
    by_cases hfits : total < offset + 1 + length.toNat
    · rw [if_pos (by omega), if_pos hfits]
      simp only [Except.map, Fault.moved, Defect.moved, Nat.add_assoc]
    · rw [if_neg (by omega), if_neg hfits]
      rfl

/-- The loop over the bytes after a buffer, with any fuel that is enough. -/
theorem decodeFrom_moved (h : distance % 4 = 0) (hfuel : bytes.length ≤ fuel)
    (hfuel' : bytes.length ≤ fuel') (htotal : offset + bytes.length = total)
    (hsmall : distance + total < 2 ^ 63) :
    decodeFrom (distance + total) fuel' (distance + offset)
        (done.map (moved distance) ++ done') bytes =
      ((decodeFrom total fuel offset done bytes).map fun found =>
        done'.reverse ++ found.map (moved distance)).mapError (Fault.moved distance) := by
  fun_induction decodeFrom total fuel offset done bytes generalizing fuel' with
  | case1 offset done =>
    rw [decodeFrom]
    simp [Except.map, Except.mapError]
  | case2 => simp at hfuel
  | case3 fuel offset done opcode tail fault hnext =>
    rw [List.length_cons] at htotal hfuel'
    obtain ⟨fuel', rfl⟩ := Nat.exists_eq_succ_of_ne_zero (show fuel' ≠ 0 by omega)
    rw [decodeFrom, next?_moved h (by omega) hsmall, hnext]
    rfl
  | case4 fuel offset done opcode tail first rest hnext ih =>
    rw [List.length_cons] at htotal hfuel hfuel'
    obtain ⟨fuel', rfl⟩ := Nat.exists_eq_succ_of_ne_zero (show fuel' ≠ 0 by omega)
    obtain ⟨_, _, _, htail⟩ := (next?_eq_ok_iff (by omega) (by omega)).mp hnext
    have hlength := congrArg List.length htail
    rw [List.length_append] at hlength
    rw [← ih (by omega) (show rest.length ≤ fuel' by omega) (by rw [size]; omega), decodeFrom,
      next?_moved h (by omega) hsmall, hnext, ← Nat.add_assoc]
    rfl

theorem length_le_encodeAll (instructions : List Instruction) :
    instructions.length ≤ (encodeAll instructions).length := by
  induction instructions with
  | nil => exact Nat.le_refl 0
  | cons first rest ih =>
    rw [length_encodeAll_cons, List.length_cons, size]
    omega

/-- The loop over a row at the front of the bytes. -/
theorem decodeFrom_row (h : Row offset front)
    (htotal : offset + (encodeAll front ++ bytes).length = total) (hsmall : total < 2 ^ 63) :
    decodeFrom total (front.length + fuel) offset done (encodeAll front ++ bytes) =
      decodeFrom total fuel (offset + (encodeAll front).length) (front.reverse ++ done) bytes := by
  induction front generalizing offset done with
  | nil => simp [encodeAll]
  | cons first front ih =>
    obtain ⟨rfl, hwell, hrow⟩ := h
    rw [encodeAll_cons, List.cons_append, List.append_assoc, List.length_cons] at htotal
    have hnext : next? total first.offset first.opcode
        (first.operands ++ (encodeAll front ++ bytes)) = .ok (first, encodeAll front ++ bytes) :=
      (next?_eq_ok_iff (by omega) hsmall).mpr ⟨rfl, rfl, hwell, rfl⟩
    rw [List.length_append] at htotal
    rw [length_encodeAll_cons, encodeAll_cons, List.cons_append, List.append_assoc,
      List.length_cons, Nat.add_right_comm, decodeFrom, hnext]
    simp only
    rw [ih hrow (by rw [size]; omega), List.reverse_cons, List.append_assoc, Nat.add_assoc]
    rfl

/-- Behind a buffer that takes a multiple of four bytes. -/
theorem decode_append (hcode : (code ++ rest).length < 2 ^ 63) (haligned : code.length % 4 = 0)
    (h : decode code = .ok instructions) :
    decode (code ++ rest) =
      ((decode rest).map fun found => instructions ++ found.map (moved code.length)).mapError
        (Fault.moved code.length) := by
  rw [List.length_append] at hcode
  obtain ⟨hrow, rfl⟩ := (decode_eq_ok_iff (by omega)).mp h
  have hle := length_le_encodeAll instructions
  obtain ⟨spare, hspare⟩ := Nat.exists_eq_add_of_le hle
  have hfront := @decodeFrom_row 0 instructions ((encodeAll instructions).length + rest.length)
    (spare + rest.length) rest [] hrow (by rw [Nat.zero_add, List.length_append]) hcode
  have hback := @decodeFrom_moved 0 _ rest.length rest.length (spare + rest.length) rest []
    instructions.reverse haligned (Nat.le_refl _) (by omega) (Nat.zero_add _) hcode
  rw [← Nat.add_assoc, ← hspare] at hfront
  rw [decode, decode, List.length_append, hfront]
  simpa using hback

end Moved

/-- The front of a buffer is decoded exactly if it ends before an instruction or with the buffer,
and then into the instructions before that place. Bytes behind a buffer that takes a multiple of
four bytes are decoded exactly if they are when they stand alone, and into the same instructions at
greater offsets, as the offset of their fault is greater if there is one. -/
theorem decode_cut_and_joined {code : Bytes} {instructions : List Instruction}
    (hcode : code.length < 2 ^ 63) (h : decode code = .ok instructions) :
    (∀ count ≤ code.length, ∀ front, decode (code.take count) = .ok front ↔
      (count = code.length ∨ ∃ instruction ∈ instructions, instruction.offset = count) ∧
        front = instructions.filter (·.offset < count)) ∧
    (code.length % 4 = 0 → ∀ rest : Bytes, (code ++ rest).length < 2 ^ 63 →
      (∀ found, decode (code ++ rest) = .ok found ↔
        ∃ back, decode rest = .ok back ∧ found = instructions ++ back.map (moved code.length)) ∧
      ∀ fault, decode rest = .error fault →
        decode (code ++ rest) = .error (fault.moved code.length)) := by
  refine ⟨fun count hcount front => decode_take_eq_ok_iff hcode h hcount, ?_⟩
  intro haligned rest hjoined
  rw [decode_append hjoined haligned h]
  cases hrest : decode rest with
  | error fault => simp [Except.map, Except.mapError]
  | ok back => simp [Except.map, Except.mapError, eq_comm]

/-- The specimen, filled up to a multiple of four bytes. -/
def alignedCode : Bytes := specimenCode ++ [0x00]

theorem decode_alignedCode_cut_and_joined :
    alignedCode.length < 2 ^ 63 ∧ ∃ instructions, decode alignedCode = .ok instructions ∧
      instructions.map (·.offset) = [0, 1, 24, 30, 31] ∧
      decode (alignedCode.take 24) = .ok (instructions.filter (·.offset < 24)) ∧
      (¬ ∃ front, decode (alignedCode.take 10) = .ok front) ∧
      decode (alignedCode ++ [0x12, 0x07]) = .ok (instructions ++ [⟨32, 0x12, [0x07]⟩]) ∧
      decode (alignedCode ++ [0x00, 0xFE]) = .error (.unknownOpcode 0xFE 33) := by
  have hlength : alignedCode.length < 2 ^ 63 := by decide
  have hoffsets : (decode alignedCode).toOption.map (List.map (·.offset)) =
      some [0, 1, 24, 30, 31] := by decide +kernel
  cases h : decode alignedCode with
  | error fault =>
    rw [h] at hoffsets
    cases hoffsets
  | ok instructions =>
    rw [h] at hoffsets
    have hoffsets : instructions.map (·.offset) = [0, 1, 24, 30, 31] := Option.some.inj hoffsets
    have hmem (count : Nat) : (∃ instruction ∈ instructions, instruction.offset = count) ↔
        count ∈ [0, 1, 24, 30, 31] := by
      rw [← hoffsets, List.mem_map]
    obtain ⟨hcut, hjoined⟩ := decode_cut_and_joined hlength h
    refine ⟨hlength, instructions, rfl, hoffsets, ?_, ?_, ?_, ?_⟩
    · exact (hcut 24 (by decide) _).mpr ⟨.inr ((hmem 24).mpr (by decide)), rfl⟩
    · rintro ⟨front, hfront⟩
      rcases ((hcut 10 (by decide) front).mp hfront).1 with hend | hoffset
      · exact absurd hend (by decide)
      · exact absurd ((hmem 10).mp hoffset) (by decide)
    · have hrest : decode [0x12, 0x07] = .ok [⟨0, 0x12, [0x07]⟩] := by decide +kernel
      exact ((hjoined (by decide) [0x12, 0x07] (by decide)).1 _).mpr ⟨_, hrest, rfl⟩
    · have hrest : decode [0x00, 0xFE] = .error (.unknownOpcode 0xFE 1) := by decide +kernel
      exact (hjoined (by decide) [0x00, 0xFE] (by decide)).2 _ hrest

end Instruction

end JarText
