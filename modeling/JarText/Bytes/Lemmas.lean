import Mathlib
import JarText.Bytes

/-!
# Numbers in byte strings

Reading the number that was written gives it back, up to the width: `littleEndianValue_littleEndian`
and `value_bigEndian`. So a number that fits its width is not changed.
-/

set_option autoImplicit false

namespace JarText.Bytes

theorem littleEndianValue_lt (bytes : Bytes) : littleEndianValue bytes < 256 ^ bytes.length := by
  induction bytes with
  | nil => simp [littleEndianValue]
  | cons byte rest ih =>
    have hlt := byte.toNat_lt
    rw [littleEndianValue, List.length_cons, Nat.pow_succ]
    omega

theorem value_lt (bytes : Bytes) : value bytes < 256 ^ bytes.length := by
  simpa [value] using littleEndianValue_lt bytes.reverse

theorem littleEndianValue_littleEndian (width n : Nat) :
    littleEndianValue (littleEndian width n) = n % 256 ^ width := by
  induction width generalizing n with
  | zero => simp [littleEndian, littleEndianValue, Nat.mod_one]
  | succ width ih =>
    rw [littleEndian, littleEndianValue, ih, Nat.pow_succ, Nat.mul_comm (256 ^ width),
      Nat.mod_mul, UInt8.toNat_ofNat']

theorem value_bigEndian (width n : Nat) : value (bigEndian width n) = n % 256 ^ width := by
  rw [value, bigEndian, List.reverse_reverse, littleEndianValue_littleEndian]

@[simp] theorem value_ofUInt16 (n : UInt16) : value (ofUInt16 n) = n.toNat := by
  rw [ofUInt16, value_bigEndian]
  exact Nat.mod_eq_of_lt n.toNat_lt

@[simp] theorem value_ofUInt32 (n : UInt32) : value (ofUInt32 n) = n.toNat := by
  rw [ofUInt32, value_bigEndian]
  exact Nat.mod_eq_of_lt n.toNat_lt

@[simp] theorem value_ofUInt64 (n : UInt64) : value (ofUInt64 n) = n.toNat := by
  rw [ofUInt64, value_bigEndian]
  exact Nat.mod_eq_of_lt n.toNat_lt

end JarText.Bytes
