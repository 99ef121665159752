import Mathlib
import JarText.Zip.Inflate

/-!
# Rows of bits

What a sink has taken is a row of bits, and so is what a source has left. A sink that takes a word
holds one row more, wherever its bytes end (`BitSink.Holds.put`). A source is known by its row
(`BitSource.At.unique`), so that a reader can be described by the rows that it reads, whatever
follows them (`ReadsBits`).
-/

set_option autoImplicit false

namespace JarText.Zip

/-! ## Numbers -/

@[simp] theorem length_bitsOf (width n : Nat) : (bitsOf width n).length = width := by
  induction width generalizing n with
  | zero => rfl
  | succ width ih => rw [bitsOf, List.length_cons, ih]

theorem ofBits_bitsOf (width n : Nat) : ofBits (bitsOf width n) = n % 2 ^ width := by
  induction width generalizing n with
  | zero => simp [bitsOf, ofBits, Nat.mod_one]
  | succ width ih =>
    have hbit : (n % 2 == 1).toNat = n % 2 := by
      rcases Nat.mod_two_eq_zero_or_one n with h | h <;> simp [h]
    rw [bitsOf, ofBits, ih, hbit, Nat.pow_succ, Nat.mul_comm (2 ^ width), Nat.mod_mul]

theorem ofBits_append (bits more : List Bool) :
    ofBits (bits ++ more) = ofBits bits + 2 ^ bits.length * ofBits more := by
  induction bits with
  | nil => simp [ofBits]
  | cons bit bits ih =>
    rw [List.cons_append, ofBits, ofBits, ih, List.length_cons, Nat.pow_succ]
    ring

theorem ofBits_lt (bits : List Bool) : ofBits bits < 2 ^ bits.length := by
  induction bits with
  | nil => exact Nat.one_pos
  | cons bit bits ih =>
    have hbit := Bool.toNat_lt bit
    rw [ofBits, List.length_cons, Nat.pow_succ]
    omega

theorem bitsOf_ofBits (bits : List Bool) : bitsOf bits.length (ofBits bits) = bits := by
  induction bits with
  | nil => rfl
  | cons bit bits ih =>
    have hlow : ((bit.toNat + 2 * ofBits bits) % 2 == 1) = bit := by
      rw [Nat.add_mul_mod_self_left]
      cases bit <;> rfl
    have hhigh : (bit.toNat + 2 * ofBits bits) / 2 = ofBits bits := by
      have hbit := Bool.toNat_lt bit
      omega
    rw [List.length_cons, ofBits, bitsOf, hlow, hhigh, ih]

theorem bitsOf_add (width more n : Nat) :
    bitsOf (width + more) n = bitsOf width n ++ bitsOf more (n / 2 ^ width) := by
  induction width generalizing n with
  | zero => simp [bitsOf]
  | succ width ih =>
    rw [Nat.add_right_comm, bitsOf, bitsOf, ih, List.cons_append, Nat.div_div_eq_div_mul,
      Nat.pow_succ']

theorem ofBits_replicate_false (count : Nat) : ofBits (List.replicate count false) = 0 := by
  induction count with
  | zero => rfl
  | succ count ih => rw [List.replicate_succ, ofBits, ih]; rfl

/-! ## Bytes -/

/-- The bits of a byte string, each byte from its lowest bit up. -/
def bitsOfBytes (bytes : Bytes) : List Bool := bytes.flatMap fun byte => bitsOf 8 byte.toNat

@[simp] theorem bitsOfBytes_nil : bitsOfBytes [] = [] := rfl

@[simp] theorem bitsOfBytes_cons (byte : UInt8) (bytes : Bytes) :
    bitsOfBytes (byte :: bytes) = bitsOf 8 byte.toNat ++ bitsOfBytes bytes := rfl

theorem bitsOfBytes_append (bytes more : Bytes) :
    bitsOfBytes (bytes ++ more) = bitsOfBytes bytes ++ bitsOfBytes more :=
  List.flatMap_append

theorem length_bitsOfBytes (bytes : Bytes) : (bitsOfBytes bytes).length = 8 * bytes.length := by
  induction bytes with
  | nil => rfl
  | cons byte bytes ih =>
    rw [bitsOfBytes_cons, List.length_append, length_bitsOf, ih, List.length_cons]
    omega

/-- The byte of eight bits. -/
theorem bitsOf_ofNat_ofBits {bits : List Bool} (h : bits.length = 8) :
    bitsOf 8 (UInt8.ofNat (ofBits bits)).toNat = bits := by
  have hlt := ofBits_lt bits
  have hbits := bitsOf_ofBits bits
  rw [h] at hlt hbits
  rw [UInt8.toNat_ofNat', Nat.mod_eq_of_lt hlt, hbits]

theorem bitsOf_toNat_inj {a b : UInt8} (h : bitsOf 8 a.toNat = bitsOf 8 b.toNat) : a = b := by
  have hvalue := congrArg ofBits h
  rw [ofBits_bitsOf, ofBits_bitsOf, Nat.mod_eq_of_lt a.toNat_lt, Nat.mod_eq_of_lt b.toNat_lt]
    at hvalue
  exact UInt8.toNat_inj.mp hvalue

/-- Bytes can be told from the front of a row of bits. -/
theorem exists_of_bitsOfBytes_eq_append {bytes front : Bytes} {bits : List Bool}
    (h : bitsOfBytes bytes = bitsOfBytes front ++ bits) :
    ∃ rest, bytes = front ++ rest ∧ bitsOfBytes rest = bits := by
  induction front generalizing bytes with
  | nil => exact ⟨bytes, rfl, h⟩
  | cons byte front ih =>
    cases bytes with
    | nil =>
      have hlength := congrArg List.length h
      simp [bitsOf] at hlength
    | cons first bytes =>
      rw [bitsOfBytes_cons, bitsOfBytes_cons, List.append_assoc] at h
      obtain ⟨hfirst, hrest⟩ := List.append_inj h (by rw [length_bitsOf, length_bitsOf])
      obtain ⟨rest, rfl, hbits⟩ := ih hrest
      exact ⟨rest, by rw [bitsOf_toNat_inj hfirst]; rfl, hbits⟩

theorem bitsOfBytes_inj {bytes bytes' : Bytes} (h : bitsOfBytes bytes = bitsOfBytes bytes') :
    bytes = bytes' := by
  obtain ⟨rest, rfl, hrest⟩ :=
    exists_of_bitsOfBytes_eq_append (h.trans (List.append_nil _).symm)
  have hlength := length_bitsOfBytes rest
  rw [hrest, List.length_nil] at hlength
  rw [List.length_eq_zero_iff.mp (by omega : rest.length = 0), List.append_nil]

theorem bitsOfBytes_littleEndian (width n : Nat) :
    bitsOfBytes (Bytes.littleEndian width n) = bitsOf (8 * width) n := by
  induction width generalizing n with
  | zero => rfl
  | succ width ih =>
    have hbyte : bitsOf 8 (UInt8.ofNat n).toNat = bitsOf 8 n := by
      have hmod := ofBits_bitsOf 8 n
      have hbits := bitsOf_ofBits (bitsOf 8 n)
      rw [length_bitsOf, hmod] at hbits
      rw [UInt8.toNat_ofNat', hbits]
    rw [Bytes.littleEndian, bitsOfBytes_cons, ih, hbyte, Nat.mul_succ, Nat.add_comm, bitsOf_add]
    rfl

/-! ## Writing -/

def Word.ofList (bits : List Bool) : Word := ⟨2 ^ bits.length, Zip.ofBits bits⟩

theorem Word.ofBits_eq {width n : Nat} (h : n < 2 ^ width) :
    Word.ofBits width n = .ofList (bitsOf width n) := by
  rw [Word.ofList, length_bitsOf, ofBits_bitsOf, Nat.mod_eq_of_lt h]
  rfl

namespace BitSink

/-- The sink has taken these bits. -/
def Holds (sink : BitSink) (bits : List Bool) : Prop :=
  ∃ tail, tail.length < 8 ∧ sink.weight = 2 ^ tail.length ∧ sink.pending = ofBits tail ∧
    bits = bitsOfBytes sink.bytes.toList ++ tail

variable {sink : BitSink} {bits : List Bool}

theorem holds_empty : empty.Holds [] := ⟨[], by decide, rfl, rfl, rfl⟩

theorem holds_settle (bytes : Array UInt8) (tail : List Bool) :
    (settle bytes (ofBits tail) (2 ^ tail.length)).Holds (bitsOfBytes bytes.toList ++ tail) := by
  -- each byte that is full takes eight bits from the tail
  induction hlength : tail.length using Nat.strong_induction_on generalizing bytes tail with
  | h length ih =>
    subst hlength
    rw [settle]
    by_cases hfull : 8 ≤ tail.length
    · obtain ⟨front, rest, rfl, hfront⟩ : ∃ front rest, tail = front ++ rest ∧ front.length = 8 :=
        ⟨tail.take 8, tail.drop 8, (List.take_append_drop 8 tail).symm, by
          rw [List.length_take]; omega⟩
      have hlt := ofBits_lt front
      have hpow : 2 ^ (front ++ rest).length = 256 * 2 ^ rest.length := by
        rw [List.length_append, hfront, Nat.pow_add]
      have hbyte : UInt8.ofNat (ofBits (front ++ rest)) = UInt8.ofNat (ofBits front) := by
        apply UInt8.toNat_inj.mp
        rw [ofBits_append, hfront, UInt8.toNat_ofNat', UInt8.toNat_ofNat',
          Nat.add_mul_mod_self_left]
      have hrest : ofBits (front ++ rest) / 256 = ofBits rest := by
        rw [ofBits_append, hfront]
        rw [hfront] at hlt
        omega
      have hle : 256 ≤ 2 ^ (front ++ rest).length := by
        rw [hpow]
        exact Nat.le_mul_of_pos_right _ (Nat.two_pow_pos _)
      have hdiv : 2 ^ (front ++ rest).length / 256 = 2 ^ rest.length := by
        rw [hpow, Nat.mul_div_cancel_left _ (by decide)]
      have hheld := ih rest.length (by rw [List.length_append]; omega)
        (bytes.push (UInt8.ofNat (ofBits front))) rest rfl
      rw [if_pos hle, hbyte, hrest, hdiv]
      rwa [Array.toList_push, bitsOfBytes_append, bitsOfBytes_cons, bitsOfBytes_nil,
        List.append_nil, bitsOf_ofNat_ofBits hfront, List.append_assoc] at hheld
    · have hlt : 2 ^ tail.length < 256 :=
        Nat.pow_lt_pow_right (by decide) (Nat.not_le.mp hfull)
      rw [if_neg (Nat.not_le.mpr hlt)]
      exact ⟨tail, Nat.not_le.mp hfull, rfl, rfl, rfl⟩

theorem Holds.put (h : sink.Holds bits) (more : List Bool) :
    (sink.put (.ofList more)).Holds (bits ++ more) := by
  obtain ⟨tail, _, hweight, hpending, rfl⟩ := h
  have hheld := holds_settle sink.bytes (tail ++ more)
  rw [ofBits_append, List.length_append, Nat.pow_add] at hheld
  rw [BitSink.put, Word.ofList, hweight, hpending, List.append_assoc, Nat.mul_comm (ofBits more)]
  exact hheld

theorem Holds.putBits {width n : Nat} (h : sink.Holds bits) (hn : n < 2 ^ width) :
    (sink.putBits width n).Holds (bits ++ bitsOf width n) := by
  rw [BitSink.putBits, Word.ofBits_eq hn]
  exact h.put _

/-- The bits that fill a byte that was begun. -/
def padding (bits : List Bool) : List Bool := List.replicate ((8 - bits.length % 8) % 8) false

theorem length_append_padding (bits : List Bool) : (bits ++ padding bits).length % 8 = 0 := by
  rw [List.length_append, padding, List.length_replicate]
  omega

theorem Holds.align (h : sink.Holds bits) : sink.align.Holds (bits ++ padding bits) := by
  obtain ⟨tail, hlt, hweight, hpending, rfl⟩ := h
  have hbits := length_bitsOfBytes sink.bytes.toList
  rw [BitSink.align]
  cases tail with
  | nil =>
    rw [if_pos (show sink.weight = 1 from hweight)]
    refine ⟨[], hlt, hweight, hpending, ?_⟩
    rw [padding, List.append_nil, hbits, Nat.mul_mod_right]
    exact List.append_nil _
  | cons bit tail =>
    have hpow := Nat.one_lt_two_pow (Nat.succ_ne_zero tail.length)
    have hpad : padding (bitsOfBytes sink.bytes.toList ++ bit :: tail) =
        List.replicate (8 - (bit :: tail).length) false := by
      rw [padding, List.length_append, hbits]
      congr 1
      rw [List.length_cons] at hlt ⊢
      omega
    have hbyte := @bitsOf_ofNat_ofBits
      (bit :: tail ++ List.replicate (8 - (bit :: tail).length) false) (by
        rw [List.length_append, List.length_replicate]; omega)
    rw [ofBits_append, ofBits_replicate_false, Nat.mul_zero, Nat.add_zero] at hbyte
    rw [if_neg (by rw [hweight, List.length_cons]; omega)]
    refine ⟨[], by decide, rfl, rfl, ?_⟩
    rw [hpad, hpending, Array.toList_push, bitsOfBytes_append, bitsOfBytes_cons, bitsOfBytes_nil,
      hbyte]
    simp only [List.append_assoc, List.append_nil]

/-- A sink whose bits fill its bytes has these bytes. -/
theorem Holds.bits_eq (h : sink.Holds bits) (hfull : bits.length % 8 = 0) :
    bits = bitsOfBytes sink.bytes.toList := by
  obtain ⟨tail, hlt, _, _, rfl⟩ := h
  rw [List.length_append, length_bitsOfBytes] at hfull
  rw [List.length_eq_zero_iff.mp (by omega : tail.length = 0), List.append_nil]

theorem Holds.putBytes (h : sink.Holds bits) (hfull : bits.length % 8 = 0) (bytes : Bytes) :
    (sink.putBytes bytes).Holds (bits ++ bitsOfBytes bytes) := by
  obtain ⟨tail, hlt, hweight, hpending, rfl⟩ := h
  rw [List.length_append, length_bitsOfBytes] at hfull
  obtain rfl := List.length_eq_zero_iff.mp (by omega : tail.length = 0)
  refine ⟨[], hlt, hweight, hpending, ?_⟩
  rw [BitSink.putBytes, Array.toList_appendList, bitsOfBytes_append, List.append_nil,
    List.append_nil]

/-- What a sink takes after its remainder is set apart can be put behind its bytes. -/
theorem Holds.append (h : sink.Holds bits) :
    ∃ front tail, bits = front ++ tail ∧ front.length % 8 = 0 ∧ sink.remainder.Holds tail ∧
      ∀ more bits', BitSink.Holds more bits' → (sink.append more).Holds (front ++ bits') := by
  obtain ⟨tail, hlt, hweight, hpending, rfl⟩ := h
  refine ⟨bitsOfBytes sink.bytes.toList, tail, rfl, ?_, ⟨tail, hlt, hweight, hpending, rfl⟩, ?_⟩
  · rw [length_bitsOfBytes, Nat.mul_mod_right]
  · rintro more _ ⟨tail', hlt', hweight', hpending', rfl⟩
    refine ⟨tail', hlt', hweight', hpending', ?_⟩
    rw [BitSink.append, Array.toList_append, bitsOfBytes_append, List.append_assoc]

end BitSink

/-! ## Reading -/

namespace BitSource

def bits (source : BitSource) : List Bool := source.pending ++ bitsOfBytes source.rest

/-- The source has these bits left. -/
structure At (source : BitSource) (bits : List Bool) : Prop where
  begun : source.pending.length < 8
  bits_eq : source.bits = bits

variable {source source' : BitSource} {bits : List Bool}

theorem at_ofBytes (bytes : Bytes) : (ofBytes bytes).At (bitsOfBytes bytes) :=
  ⟨Nat.succ_pos 7, rfl⟩

theorem At.length_pending (h : source.At bits) : source.pending.length = bits.length % 8 := by
  obtain ⟨hbegun, rfl⟩ := h
  rw [BitSource.bits, List.length_append, length_bitsOfBytes]
  omega

/-- No two sources have the same bits left. -/
theorem At.unique (h : source.At bits) (h' : source'.At bits) : source = source' := by
  have hlength := h.length_pending.trans h'.length_pending.symm
  obtain ⟨pending, rest⟩ := source
  obtain ⟨pending', rest'⟩ := source'
  obtain ⟨hpending, hrest⟩ := List.append_inj (h.bits_eq.trans h'.bits_eq.symm) hlength
  obtain rfl : pending = pending' := hpending
  obtain rfl : rest = rest' := bitsOfBytes_inj hrest
  rfl

theorem At.next? {bit : Bool} (h : source.At (bit :: bits)) :
    ∃ source', source.next? = some (bit, source') ∧ source'.At bits := by
  obtain ⟨pending, rest⟩ := source
  obtain ⟨hbegun, hbits⟩ := h
  rw [BitSource.bits] at hbits
  cases pending with
  | cons first pending =>
    obtain ⟨rfl, rfl⟩ := List.cons.inj hbits
    exact ⟨_, rfl, Nat.lt_of_succ_lt hbegun, rfl⟩
  | nil =>
    cases rest with
    | nil => cases hbits
    | cons byte rest =>
      obtain ⟨rfl, rfl⟩ := List.cons.inj hbits
      exact ⟨_, rfl, by rw [length_bitsOf]; decide, rfl⟩

theorem At.takeBits? {front : List Bool} (h : source.At (front ++ bits)) :
    ∃ source', source.takeBits? front.length = some (ofBits front, source') ∧
      source'.At bits := by
  induction front generalizing source with
  | nil => exact ⟨source, rfl, h⟩
  | cons bit front ih =>
    obtain ⟨source₁, hnext, h₁⟩ := h.next?
    obtain ⟨source₂, htake, h₂⟩ := ih h₁
    refine ⟨source₂, ?_, h₂⟩
    rw [List.length_cons, BitSource.takeBits?, hnext]
    simp only [Option.bind_eq_bind, Option.bind_some, htake]
    rfl

/-- Where the bits that follow fill their bytes, what is left of the byte before is left aside. -/
theorem At.align {front : List Bool} (h : source.At (front ++ bits)) (hshort : front.length < 8)
    (hfull : bits.length % 8 = 0) : source.align.At bits := by
  have hlength := h.length_pending
  rw [List.length_append] at hlength
  obtain ⟨_, hbits⟩ := List.append_inj h.bits_eq (by omega)
  exact ⟨Nat.succ_pos 7, hbits⟩

end BitSource

section ReadsBits

variable {α β : Type} {read : BitSource → Except ZipFault (α × BitSource)}
  {next : α → BitSource → Except ZipFault (β × BitSource)} {bits more : List Bool} {a : α} {b : β}

/-- A reader reads these bits as a value, whatever follows them. -/
def ReadsBits (read : BitSource → Except ZipFault (α × BitSource)) (bits : List Bool) (a : α) :
    Prop :=
  ∀ source rest, source.At (bits ++ rest) →
    ∃ source', read source = .ok (a, source') ∧ source'.At rest

theorem readsBits_pure (a : α) : ReadsBits (fun source => .ok (a, source)) [] a :=
  fun source _ h => ⟨source, rfl, h⟩

theorem ReadsBits.bind (h : ReadsBits read bits a) (hnext : ReadsBits (next a) more b) :
    ReadsBits (fun source => read source >>= fun found => next found.1 found.2) (bits ++ more)
      b := by
  intro source rest hsource
  rw [List.append_assoc] at hsource
  obtain ⟨source₁, hread, h₁⟩ := h source _ hsource
  obtain ⟨source₂, hread', h₂⟩ := hnext source₁ rest h₁
  refine ⟨source₂, ?_, h₂⟩
  simp only [hread]
  exact hread'

theorem readsBits_takeBits {width n : Nat} (h : n < 2 ^ width) :
    ReadsBits (takeBits width) (bitsOf width n) n := by
  intro source rest hsource
  obtain ⟨source', htake, h'⟩ := hsource.takeBits?
  rw [length_bitsOf, ofBits_bitsOf, Nat.mod_eq_of_lt h] at htake
  exact ⟨source', by rw [takeBits, htake], h'⟩

end ReadsBits

end JarText.Zip
