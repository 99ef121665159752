/-!
# Byte strings

A file, a class and a constant are strings of bytes. A number is written in a fixed number of
bytes, most significant first (class files) or last (zip files). `littleEndian_value` and
`bigEndian_value` say that writing the number that was read gives the bytes back.
-/

set_option autoImplicit false

namespace JarText

abbrev Bytes := List UInt8

namespace Bytes

/-- The last `width` bytes of `n`, least significant first. -/
def littleEndian : (width : Nat) → Nat → Bytes
  | 0, _ => []
  | width + 1, n => UInt8.ofNat n :: littleEndian width (n / 256)

/-- The last `width` bytes of `n`, most significant first. -/
def bigEndian (width n : Nat) : Bytes := (littleEndian width n).reverse

/-- The number that a byte string denotes, least significant byte first. -/
def littleEndianValue : Bytes → Nat
  | [] => 0
  | byte :: rest => byte.toNat + 256 * littleEndianValue rest

/-- The number that a byte string denotes, most significant byte first. -/
def value (bytes : Bytes) : Nat := littleEndianValue bytes.reverse

def ofUInt16 (n : UInt16) : Bytes := bigEndian 2 n.toNat

def ofUInt32 (n : UInt32) : Bytes := bigEndian 4 n.toNat

def ofUInt64 (n : UInt64) : Bytes := bigEndian 8 n.toNat

@[simp] theorem length_littleEndian (width n : Nat) : (littleEndian width n).length = width := by
  induction width generalizing n with
  | zero => rfl
  | succ width ih => simp [littleEndian, ih]

@[simp] theorem length_bigEndian (width n : Nat) : (bigEndian width n).length = width := by
  simp [bigEndian]

@[simp] theorem length_ofUInt16 (n : UInt16) : (ofUInt16 n).length = 2 := by simp [ofUInt16]

@[simp] theorem length_ofUInt32 (n : UInt32) : (ofUInt32 n).length = 4 := by simp [ofUInt32]

@[simp] theorem length_ofUInt64 (n : UInt64) : (ofUInt64 n).length = 8 := by simp [ofUInt64]

/-- Writing the number that was read gives the bytes back. -/
theorem littleEndian_value (bytes : Bytes) :
    littleEndian bytes.length (littleEndianValue bytes) = bytes := by
  induction bytes with
  | nil => rfl
  | cons byte rest ih =>
    have hlt := byte.toNat_lt
    have hdiv : (byte.toNat + 256 * littleEndianValue rest) / 256 = littleEndianValue rest := by
      omega
    have hmod : UInt8.ofNat (byte.toNat + 256 * littleEndianValue rest) = byte := by
      apply UInt8.toNat_inj.1
      simp only [UInt8.toNat_ofNat']
      omega
    rw [List.length_cons, littleEndianValue, littleEndian, hdiv, hmod, ih]

/-- Writing the number that was read gives the bytes back. -/
theorem bigEndian_value (bytes : Bytes) : bigEndian bytes.length (value bytes) = bytes := by
  have h := littleEndian_value bytes.reverse
  rw [List.length_reverse] at h
  rw [bigEndian, value, h, List.reverse_reverse]

end Bytes

end JarText
