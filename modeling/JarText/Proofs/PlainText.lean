import JarText.Proofs.TextCodec
import JarText.Text.CodePage437

/-!
# Texts as UTF-8

A text is read back from its bytes by `decode?` and, since none of it is broken, by `decodeLossy`. A
text of ASCII has the same bytes in code page 437.
-/

set_option autoImplicit false

namespace JarText.Text

namespace Utf8

theorem four_fourBytes {n : Nat} (h : n < 0x110000) :
    four (UInt8.ofNat (0xF0 + n / 262144)) (UInt8.ofNat (0x80 + n / 4096 % 64))
      (UInt8.ofNat (0x80 + n / 64 % 64)) (UInt8.ofNat (0x80 + n % 64)) = n := by
  unfold four
  rw [toNat_ofNat (show 0xF0 + n / 262144 < 256 by omega), toNat_tail, toNat_tail, toNat_tail]
  omega

theorem next?_four {a b c d : UInt8} {rest : Bytes} (ha : 0xF0 ≤ a.toNat) (ha' : a.toNat < 0xF5) :
    next? (a :: b :: c :: d :: rest) =
      if isTail b && isTail c && isTail d && 0x10000 ≤ four a b c d && four a b c d < 0x110000 then
        some (Char.ofNat (four a b c d), rest)
      else none := by
  rw [next?, if_neg (by omega), if_neg (by omega), if_neg (by omega), if_neg (by omega), if_pos ha']

theorem next?_fourBytes {n : Nat} (h : 0x10000 ≤ n) (h' : n < 0x110000) (rest : Bytes) :
    next? (fourBytes n ++ rest) = some (Char.ofNat n, rest) := by
  have ha : (UInt8.ofNat (0xF0 + n / 262144)).toNat = 0xF0 + n / 262144 := toNat_ofNat (by omega)
  have hread := @next?_four (UInt8.ofNat (0xF0 + n / 262144)) (UInt8.ofNat (0x80 + n / 4096 % 64))
    (UInt8.ofNat (0x80 + n / 64 % 64)) (UInt8.ofNat (0x80 + n % 64)) rest (by rw [ha]; omega)
    (by rw [ha]; omega)
  rw [four_fourBytes h', isTail_tail, isTail_tail, isTail_tail,
    if_pos (by simp only [Bool.true_and, Bool.and_eq_true, decide_eq_true_eq]; exact ⟨h, h'⟩)]
    at hread
  exact hread

theorem next?_encodeChar (c : Char) (rest : Bytes) :
    next? (encodeChar c ++ rest) = some (c, rest) := by
  have hrange := toNat_range c
  have hread : next? (encodeChar c ++ rest) = some (Char.ofNat c.toNat, rest) := by
    simp only [encodeChar]
    split
    · rename_i hone
      have ha : (UInt8.ofNat c.toNat).toNat = c.toNat := toNat_ofNat (by omega)
      have hread := @next?_one (UInt8.ofNat c.toNat) rest (by omega)
      rwa [ha] at hread
    · rename_i hone
      split
      · rename_i htwo
        have ha : (UInt8.ofNat (0xC0 + c.toNat / 64)).toNat = 0xC0 + c.toNat / 64 :=
          toNat_ofNat (by omega)
        have hread := @next?_two (UInt8.ofNat (0xC0 + c.toNat / 64))
          (UInt8.ofNat (0x80 + c.toNat % 64)) rest (by omega) (by omega) (isTail_tail _)
        rwa [two_twoBytes htwo] at hread
      · split
        · rename_i htwo hthree
          exact next?_threeBytes (by omega) hthree (isSurrogate_toNat c) rest
        · exact next?_fourBytes (by omega) (by omega) rest
  rwa [Char.ofNat_toNat] at hread

theorem encodeChar_ne_nil (c : Char) : encodeChar c ≠ [] := by
  simp only [encodeChar]
  split
  · simp [oneByte]
  · split
    · simp [twoBytes]
    · split <;> simp [threeBytes, fourBytes]

/-- A text is read back from its bytes. -/
theorem decode?_encode (text : String) : decode? (encode text) = some text := by
  have hread := @ModifiedUtf8.decodeWith_flatMap _ _ (fun _ => true) encodeChar_ne_nil
    next?_encodeChar _ _ (ModifiedUtf8.length_le_flatMap encodeChar_ne_nil text.toList) []
  rw [decode?, encode, hread]
  simp

theorem decodeLossyFrom_flatMap {text : List Char} {fuel : Nat} (hfuel : text.length ≤ fuel)
    (done : List Char) :
    decodeLossyFrom fuel done (text.flatMap encodeChar) = done.reverse ++ text := by
  induction text generalizing fuel done with
  | nil => cases fuel <;> simp [decodeLossyFrom]
  | cons c text ih =>
    obtain ⟨fuel, rfl⟩ : ∃ less, fuel = less + 1 :=
      ⟨fuel - 1, by rw [List.length_cons] at hfuel; omega⟩
    obtain ⟨byte, bytes, hbytes⟩ : ∃ byte bytes,
        encodeChar c ++ text.flatMap encodeChar = byte :: bytes :=
      List.exists_cons_of_ne_nil (List.append_ne_nil_of_left_ne_nil (encodeChar_ne_nil c) _)
    have hnext := next?_encodeChar c (text.flatMap encodeChar)
    rw [List.flatMap_cons, hbytes, decodeLossyFrom, ← hbytes, hnext]
    · simp only [ih (Nat.le_of_succ_le_succ hfuel), List.reverse_cons, List.append_assoc,
        List.singleton_append]
    · exact List.cons_ne_nil byte bytes

theorem decodeLossy_encode (text : String) : decodeLossy (encode text) = text := by
  have hfuel := ModifiedUtf8.length_le_flatMap encodeChar_ne_nil text.toList
  rw [decodeLossy, encode, decodeLossyFrom_flatMap hfuel]
  exact String.ofList_toList

end Utf8

namespace CodePage437

theorem decodeByte_ofNat (c : Char) (h : c.toNat < 0x80) : decodeByte (UInt8.ofNat c.toNat) = c := by
  have hbyte : (UInt8.ofNat c.toNat).toNat = c.toNat := Utf8.toNat_ofNat (by omega)
  have hlow : UInt8.ofNat c.toNat < 0x80 := by
    rw [UInt8.lt_iff_toNat_lt, hbyte]
    exact h
  rw [decodeByte, if_pos hlow, hbyte, Char.ofNat_toNat]

theorem decode_encode {text : String} (h : ∀ c ∈ text.toList, c.toNat < 0x80) :
    decode (Utf8.encode text) = text := by
  have hbytes : ∀ chars : List Char, (∀ c ∈ chars, c.toNat < 0x80) →
      (chars.flatMap Utf8.encodeChar).map decodeByte = chars := by
    intro chars hchars
    induction chars with
    | nil => rfl
    | cons c chars ih =>
      obtain ⟨hc, hrest⟩ := List.forall_mem_cons.mp hchars
      have hone : Utf8.encodeChar c = [UInt8.ofNat c.toNat] := if_pos hc
      rw [List.flatMap_cons, hone, List.singleton_append, List.map_cons, ih hrest,
        decodeByte_ofNat c hc]
  rw [decode, Utf8.encode, hbytes text.toList h]
  exact String.ofList_toList

end CodePage437

end JarText.Text
