import JarText.Proofs.InstructionFormat

/-!
# Code buffers as rows of instructions

A buffer is decoded exactly if it is a row of well-formed instructions from offset 0, with no gap
and no overlap, and then into these. Otherwise the decoder goes as far as the row does, and its
fault names the offset of the first instruction that is not of the format.

The end of an instruction is computed in words of 64 bits. No buffer in memory has 2^63 bytes, as
sizes are signed, so this sum is exact.
-/

set_option autoImplicit false

namespace JarText.Instruction

/-- Well-formed instructions one after the other, the first of them at an offset. -/
def Row : (offset : Nat) → List Instruction → Prop
  | _, [] => True
  | offset, first :: rest =>
    first.offset = offset ∧ first.WellFormed ∧ Row (offset + first.size) rest

def encodeAll (instructions : List Instruction) : Bytes := instructions.flatMap encode

theorem encodeAll_cons (first : Instruction) (rest : List Instruction) :
    encodeAll (first :: rest) = first.opcode :: (first.operands ++ encodeAll rest) :=
  rfl

/-! ## One instruction -/

section Next

variable {total offset : Nat} {opcode : UInt8} {operands tail rest : Bytes}
  {instruction : Instruction} {fault : Fault}

/-- The end of an instruction is the end of its operands: the sum does not overflow. -/
theorem toNat_stop {length : UInt64} (hoffset : offset < 2 ^ 63)
    (h : operandLength? total offset opcode tail = .ok length) :
    (UInt64.ofNat offset + 1 + length).toNat = offset + 1 + length.toNat := by
  have hlength : length.toNat < 2 ^ 36 := by
    by_cases hplain : opcode ∉ Opcode.varying
    · obtain ⟨_, rfl⟩ := (operandLength?_plain_eq_ok_iff hplain).mp h
      have hle := Opcode.operandWidth_le opcode
      rw [UInt64.toNat_ofNat_of_lt' (Nat.lt_of_le_of_lt hle (by decide))]
      omega
    · simp only [Opcode.varying, not_not, List.mem_cons, List.not_mem_nil, or_false] at hplain
      rcases hplain with rfl | rfl | rfl
      · obtain ⟨low, high, _, _, hbounds, rfl⟩ := operandLength?_tableSwitch_eq_ok_iff.mp h
        have hnat := toNat_tableLength offset hbounds
        have hpad := padding_lt offset
        have hhigh := Int32.toInt_lt high
        have hlow := Int32.le_toInt low
        omega
      · obtain ⟨pairs, _, hbound, rfl⟩ := operandLength?_lookupSwitch_eq_ok_iff.mp h
        have hnat := toNat_lookupLength offset hbound
        have hpad := padding_lt offset
        have hlt := Int32.toInt_lt pairs
        omega
      · obtain ⟨_, _, _, hform⟩ := operandLength?_wide_eq_ok_iff.mp h
        rcases hform with ⟨_, rfl⟩ | ⟨_, rfl⟩ <;> decide
  simp only [UInt64.toNat_add, UInt64.toNat_ofNat', UInt64.toNat_ofNat]
  omega

/-- The next instruction is the well-formed one at the front. -/
theorem next?_eq_ok_iff (htotal : offset + 1 + tail.length = total) (hsmall : total < 2 ^ 63) :
    next? total offset opcode tail = .ok (instruction, rest) ↔
      instruction.offset = offset ∧ instruction.opcode = opcode ∧ instruction.WellFormed ∧
        tail = instruction.operands ++ rest := by
  have htotal_toNat : (UInt64.ofNat total).toNat = total :=
    UInt64.toNat_ofNat_of_lt' (Nat.lt_trans hsmall (by decide))
  constructor
  · intro h
    unfold next? at h
    cases hlength : operandLength? total offset opcode tail with
    | error fault =>
      simp only [hlength] at h
      cases h
    | ok length =>
      simp only [hlength] at h
      split at h
      · cases h
      · rename_i hfits
        rw [UInt64.lt_iff_toNat_lt, htotal_toNat, toNat_stop (by omega) hlength] at hfits
        cases h
        refine ⟨rfl, rfl, ?_, (List.take_append_drop _ _).symm⟩
        apply (wellFormed_iff_operandLength? total (tail.drop length.toNat)).mpr
        rw [List.take_append_drop]
        refine ⟨length, hlength, ?_⟩
        rw [List.length_take]
        omega
  · rintro ⟨rfl, rfl, hwell, rfl⟩
    obtain ⟨length, hlength, hoperands⟩ := (wellFormed_iff_operandLength? total rest).mp hwell
    rw [List.length_append] at htotal
    have hfits : ¬ UInt64.ofNat total < UInt64.ofNat instruction.offset + 1 + length := by
      rw [UInt64.lt_iff_toNat_lt, htotal_toNat, toNat_stop (by omega) hlength]
      omega
    simp only [next?, hlength, if_neg hfits, ← hoperands, List.take_left, List.drop_left]

/-- A fault that is told of an opcode at an offset: it is not assigned, or it is and the instruction
is malformed. -/
def Rejects (offset : Nat) (opcode : UInt8) (fault : Fault) : Prop :=
  (Opcode.last < opcode ∧ fault = .unknownOpcode opcode offset) ∨
    (opcode ≤ Opcode.last ∧ ∃ defect, fault = .malformed offset defect)

theorem rejects_of_operandLength? (h : operandLength? total offset opcode tail = .error fault) :
    Rejects offset opcode fault := by
  have hassigned {layout : Layout} (hlayout : Opcode.layout? opcode = some layout) :
      opcode ≤ Opcode.last := by
    rw [← UInt8.not_lt, ← Opcode.layout?_eq_none_iff, hlayout]
    exact Option.some_ne_none layout
  unfold operandLength? at h
  split at h
  · rename_i hlayout
    cases h
    exact .inl ⟨(Opcode.layout?_eq_none_iff opcode).mp hlayout, rfl⟩
  · cases h
  · rename_i hlayout
    refine .inr ⟨hassigned hlayout, ?_⟩
    split at h
    · cases h
      exact ⟨_, rfl⟩
    · split at h
      · cases h
      · split at h <;> cases h
        exact ⟨_, rfl⟩
  · rename_i hlayout
    refine .inr ⟨hassigned hlayout, ?_⟩
    simp only at h
    split at h
    · cases h
      exact ⟨_, rfl⟩
    · split at h
      · cases h
        exact ⟨_, rfl⟩
      · split at h <;> cases h
        exact ⟨_, rfl⟩
  · rename_i hlayout
    refine .inr ⟨hassigned hlayout, ?_⟩
    simp only at h
    split at h
    · cases h
      exact ⟨_, rfl⟩
    · split at h <;> cases h
      exact ⟨_, rfl⟩

theorem rejects_of_next? (h : next? total offset opcode tail = .error fault) :
    Rejects offset opcode fault := by
  unfold next? at h
  cases hlength : operandLength? total offset opcode tail with
  | error fault' =>
    simp only [hlength] at h
    cases h
    exact rejects_of_operandLength? hlength
  | ok length =>
    simp only [hlength] at h
    split at h
    · cases h
      refine .inr ⟨?_, _, rfl⟩
      rw [← UInt8.not_lt, ← Opcode.layout?_eq_none_iff]
      intro hlayout
      simp only [operandLength?, hlayout, reduceCtorEq] at hlength
    · cases h

end Next

/-! ## A whole buffer -/

section Buffer

variable {total fuel offset : Nat} {bytes : Bytes} {done instructions : List Instruction}
  {fault : Fault}

theorem decodeFrom_eq_ok_iff (hfuel : bytes.length ≤ fuel) (htotal : offset + bytes.length = total)
    (hsmall : total < 2 ^ 63) :
    decodeFrom total fuel offset done bytes = .ok instructions ↔
      ∃ more, instructions = done.reverse ++ more ∧ Row offset more ∧ bytes = encodeAll more := by
  fun_induction decodeFrom total fuel offset done bytes with
  | case1 offset done =>
    constructor
    · intro h
      cases h
      exact ⟨[], by simp, trivial, rfl⟩
    · rintro ⟨more, rfl, _, hbytes⟩
      cases more with
      | nil => rw [List.append_nil]
      | cons first more => cases hbytes
  | case2 => simp at hfuel
  | case3 fuel offset done opcode tail fault hnext =>
    rw [List.length_cons] at htotal
    constructor
    · intro h
      cases h
    · rintro ⟨more, rfl, hrow, hbytes⟩
      cases more with
      | nil => cases hbytes
      | cons first more =>
        obtain ⟨hoffset, hwell, _⟩ := hrow
        obtain ⟨hopcode, htail⟩ := List.cons.inj hbytes
        have hok := (next?_eq_ok_iff (by omega) hsmall).mpr ⟨hoffset, hopcode.symm, hwell, htail⟩
        rw [hnext] at hok
        cases hok
  | case4 fuel offset done opcode tail first rest hnext ih =>
    rw [List.length_cons] at htotal hfuel
    obtain ⟨hoffset, hopcode, hwell, htail⟩ := (next?_eq_ok_iff (by omega) hsmall).mp hnext
    have hlength := congrArg List.length htail
    rw [List.length_append] at hlength
    rw [ih (by omega) (by rw [size]; omega)]
    constructor
    · rintro ⟨more, rfl, hrow, rfl⟩
      refine ⟨first :: more, by simp, ⟨hoffset, hwell, hrow⟩, ?_⟩
      rw [encodeAll_cons, hopcode, htail]
    · rintro ⟨more, rfl, hrow, hbytes⟩
      cases more with
      | nil => cases hbytes
      | cons other more =>
        obtain ⟨hoffset', hwell', hrow'⟩ := hrow
        obtain ⟨hopcode', htail'⟩ := List.cons.inj hbytes
        -- the instruction at the front is unique, so the row begins with this one
        have hother := (next?_eq_ok_iff (by omega) hsmall).mpr
          ⟨hoffset', hopcode'.symm, hwell', htail'⟩
        rw [hnext] at hother
        cases hother
        exact ⟨more, by simp, hrow', rfl⟩

theorem decodeFrom_eq_error (hfuel : bytes.length ≤ fuel) (htotal : offset + bytes.length = total)
    (hsmall : total < 2 ^ 63) (h : decodeFrom total fuel offset done bytes = .error fault) :
    ∃ front opcode tail, bytes = encodeAll front ++ opcode :: tail ∧ Row offset front ∧
      (∀ operands, operands <+: tail →
        ¬ WellFormed ⟨offset + (encodeAll front).length, opcode, operands⟩) ∧
      Rejects (offset + (encodeAll front).length) opcode fault := by
  fun_induction decodeFrom total fuel offset done bytes with
  | case1 => cases h
  | case2 => cases h
  | case3 fuel offset done opcode tail fault' hnext =>
    cases h
    rw [List.length_cons] at htotal
    refine ⟨[], opcode, tail, rfl, trivial, ?_, rejects_of_next? hnext⟩
    rintro operands ⟨rest, rfl⟩ hwell
    have hok : next? total offset opcode (operands ++ rest) =
        .ok (⟨offset, opcode, operands⟩, rest) :=
      (next?_eq_ok_iff (by omega) hsmall).mpr ⟨rfl, rfl, hwell, rfl⟩
    rw [hnext] at hok
    cases hok
  | case4 fuel offset done opcode tail first rest hnext ih =>
    rw [List.length_cons] at htotal hfuel
    obtain ⟨hoffset, hopcode, hwell, htail⟩ := (next?_eq_ok_iff (by omega) hsmall).mp hnext
    have hlength := congrArg List.length htail
    rw [List.length_append] at hlength
    obtain ⟨front, opcode', tail', rfl, hrow, hmisfit, hrejects⟩ :=
      ih (by omega) (by rw [size]; omega) h
    have hend : offset + (encodeAll (first :: front)).length =
        offset + first.size + (encodeAll front).length := by
      rw [encodeAll_cons, List.length_cons, List.length_append, size]
      omega
    refine ⟨first :: front, opcode', tail', ?_, ⟨hoffset, hwell, hrow⟩, ?_, ?_⟩
    · rw [encodeAll_cons, hopcode, htail, List.cons_append, List.append_assoc]
    · rwa [hend]
    · rwa [hend]

/-- A buffer is decoded into the row of well-formed instructions that it is, which is the only one.
If it is none, the fault tells the offset of the first instruction that is not of the format. -/
theorem decode_rows_exactly {code : Bytes} (hcode : code.length < 2 ^ 63) :
    (∀ instructions, decode code = .ok instructions ↔
      Row 0 instructions ∧ code = encodeAll instructions) ∧
    (∀ instructions others, Row 0 instructions → code = encodeAll instructions →
      Row 0 others → code = encodeAll others → instructions = others) ∧
    ∀ fault, decode code = .error fault →
      ∃ front opcode tail, code = encodeAll front ++ opcode :: tail ∧ Row 0 front ∧
        (∀ operands, operands <+: tail →
          ¬ WellFormed ⟨(encodeAll front).length, opcode, operands⟩) ∧
        (Opcode.last < opcode ∧ fault = .unknownOpcode opcode (encodeAll front).length ∨
          opcode ≤ Opcode.last ∧ ∃ defect, fault = .malformed (encodeAll front).length defect) := by
  have hdecode (instructions : List Instruction) : decode code = .ok instructions ↔
      Row 0 instructions ∧ code = encodeAll instructions := by
    unfold decode
    rw [decodeFrom_eq_ok_iff (Nat.le_refl _) (Nat.zero_add _) hcode]
    constructor
    · rintro ⟨more, rfl, hrow, hbytes⟩
      exact ⟨hrow, hbytes⟩
    · rintro ⟨hrow, hbytes⟩
      exact ⟨instructions, rfl, hrow, hbytes⟩
  refine ⟨hdecode, ?_, ?_⟩
  · intro instructions others hrow hbytes hrow' hbytes'
    have hfirst := (hdecode instructions).mpr ⟨hrow, hbytes⟩
    have hsecond := (hdecode others).mpr ⟨hrow', hbytes'⟩
    exact Except.ok.inj (hfirst.symm.trans hsecond)
  · intro fault h
    obtain ⟨front, opcode, tail, hbytes, hrow, hmisfit, hrejects⟩ :=
      decodeFrom_eq_error (Nat.le_refl _) (Nat.zero_add _) hcode h
    rw [Nat.zero_add] at hmisfit hrejects
    exact ⟨front, opcode, tail, hbytes, hrow, hmisfit, hrejects⟩

/-- A table of two entries after two bytes of padding, and an increment made wide. -/
def specimenCode : Bytes :=
  [0x03, 0xAA, 0, 0, 0, 0, 0, 20, 0xFF, 0xFF, 0xFF, 0xFF, 0, 0, 0, 0, 0, 0, 0, 10, 0, 0, 0, 15,
    0xC4, 0x84, 1, 0, 0, 5, 0xB1]

theorem decode_specimen_rows :
    specimenCode.length < 2 ^ 63 ∧ (specimenCode ++ [0xFE]).length < 2 ^ 63 ∧
      (∃ instructions, decode specimenCode = .ok instructions ∧
        instructions.map (·.size) = [1, 23, 6, 1] ∧ Row 0 instructions ∧
        specimenCode = encodeAll instructions) ∧
      decode (specimenCode ++ [0xFE]) = .error (.unknownOpcode 0xFE 31) ∧
      ∃ front tail, specimenCode ++ [0xFE] = encodeAll front ++ 0xFE :: tail ∧ Row 0 front ∧
        (encodeAll front).length = 31 := by
  have hlength : specimenCode.length < 2 ^ 63 := by decide
  have hlength' : (specimenCode ++ [0xFE]).length < 2 ^ 63 := by decide
  have hfault : decode (specimenCode ++ [0xFE]) = .error (.unknownOpcode 0xFE 31) := by
    decide +kernel
  refine ⟨hlength, hlength', ?_, hfault, ?_⟩
  · have hsizes : (decode specimenCode).toOption.map (List.map size) = some [1, 23, 6, 1] := by
      decide +kernel
    cases h : decode specimenCode with
    | error fault =>
      rw [h] at hsizes
      cases hsizes
    | ok instructions =>
      rw [h] at hsizes
      obtain ⟨hrow, hbytes⟩ := ((decode_rows_exactly hlength).1 instructions).mp h
      exact ⟨instructions, rfl, Option.some.inj hsizes, hrow, hbytes⟩
  · obtain ⟨front, opcode, tail, hbytes, hrow, _, hrejects⟩ :=
      (decode_rows_exactly hlength').2.2 _ hfault
    rcases hrejects with ⟨_, heq⟩ | ⟨_, defect, heq⟩
    · obtain ⟨rfl, hoffset⟩ := Fault.unknownOpcode.inj heq
      exact ⟨front, tail, hbytes, hrow, hoffset.symm⟩
    · cases heq

end Buffer

end JarText.Instruction
