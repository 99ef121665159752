import JarText.Proofs.TextCodec

/-!
# The units of modified UTF-8

`TextUnit` lists the forms in which a character is written, byte by byte, and `TextUnits` the rows
of them. These rows are exactly what is written for some text. So they are also the payloads that
can be shown and written again without a change: whatever else is shown, be it plain UTF-8 with a
zero byte or a form of four bytes, or text that is broken, is written anew in units.
-/

set_option autoImplicit false

namespace JarText.Text.ModifiedUtf8

open Utf8

/-- The bytes of one character. -/
inductive TextUnit : Bytes → Prop where
  | ascii {a : UInt8} (lead : 0x01 ≤ a.toNat ∧ a.toNat ≤ 0x7F) : TextUnit [a]
  | zero : TextUnit [0xC0, 0x80]
  | two {a b : UInt8} (lead : 0xC2 ≤ a.toNat ∧ a.toNat ≤ 0xDF) (tail : isTail b = true) :
      TextUnit [a, b]
  /-- A smaller second byte would make a longer form of a number that two bytes hold. -/
  | threeLowest {b c : UInt8} (second : 0xA0 ≤ b.toNat ∧ b.toNat ≤ 0xBF) (tail : isTail c = true) :
      TextUnit [0xE0, b, c]
  | three {a b c : UInt8} (lead : 0xE1 ≤ a.toNat ∧ a.toNat ≤ 0xEF) (ne : a ≠ 0xED)
      (second : isTail b = true) (tail : isTail c = true) : TextUnit [a, b, c]
  /-- A greater second byte would make a surrogate. -/
  | threeBelowSurrogates {b c : UInt8} (second : 0x80 ≤ b.toNat ∧ b.toNat ≤ 0x9F)
      (tail : isTail c = true) : TextUnit [0xED, b, c]
  | pair {b c e f : UInt8} (high : 0xA0 ≤ b.toNat ∧ b.toNat ≤ 0xAF) (highTail : isTail c = true)
      (low : 0xB0 ≤ e.toNat ∧ e.toNat ≤ 0xBF) (lowTail : isTail f = true) :
      TextUnit [0xED, b, c, 0xED, e, f]

/-- Units one after the other. -/
inductive TextUnits : Bytes → Prop where
  | nil : TextUnits []
  | cons {unit rest : Bytes} (first : TextUnit unit) (more : TextUnits rest) :
      TextUnits (unit ++ rest)

def unitLength (c : Char) : Nat :=
  if c = '\x00' then 2
  else if c ≤ '\x7F' then 1
  else if c ≤ '\u07FF' then 2
  else if c ≤ '\uFFFF' then 3
  else 6

/-! ## Numbers of bytes and bytes of numbers -/

theorem isTail_iff {b : UInt8} : isTail b = true ↔ 0x80 ≤ b.toNat ∧ b.toNat < 0xC0 := by
  simp [isTail]

theorem ofNat_eq {a : UInt8} {n : Nat} (h : n = a.toNat) : UInt8.ofNat n = a := by
  rw [h, UInt8.ofNat_toNat]

theorem twoBytes_two {a b : UInt8} (ha : 0xC0 ≤ a.toNat) (hb : isTail b = true) :
    twoBytes (two a b) = [a, b] := by
  rw [isTail_iff] at hb
  unfold twoBytes two
  rw [@ofNat_eq a _ (by omega), @ofNat_eq b _ (by omega)]

theorem threeBytes_three {a b c : UInt8} (ha : 0xE0 ≤ a.toNat) (hb : isTail b = true)
    (hc : isTail c = true) : threeBytes (three a b c) = [a, b, c] := by
  rw [isTail_iff] at hb hc
  unfold threeBytes three
  rw [@ofNat_eq a _ (by omega), @ofNat_eq b _ (by omega), @ofNat_eq c _ (by omega)]

theorem bounds_of_toNat {a : UInt8} (h : 0 < a.toNat ∧ a.toNat < 0xF0) : a ≠ 0 ∧ a < 0xF0 :=
  ⟨@ne_of_toNat a 0 (by omega) (by omega), UInt8.lt_iff_toNat_lt.mpr h.2⟩

theorem bounds_of_isTail {a : UInt8} (h : isTail a = true) : a ≠ 0 ∧ a < 0xF0 := by
  rw [isTail_iff] at h
  exact bounds_of_toNat (by omega)

theorem exists_char {n : Nat} (h : n < 0xD800 ∨ 0xDFFF < n ∧ n < 0x110000) :
    ∃ c : Char, c.toNat = n :=
  ⟨Char.ofNat n, by rw [Char.toNat_ofNat, if_pos h]⟩

/-! ## What is written is a unit, and each unit is written -/

section Characters

variable {n : Nat}

theorem textUnit_twoBytes (h : 0x80 ≤ n) (h' : n < 0x800) : TextUnit (twoBytes n) := by
  have ha := toNat_ofNat (show 0xC0 + n / 64 < 256 by omega)
  exact .two (by omega) (isTail_tail n)

theorem textUnit_threeBytes (h : 0x800 ≤ n) (h' : n < 0x10000)
    (hrange : n < 0xD800 ∨ 0xDFFF < n) : TextUnit (threeBytes n) := by
  have hb := toNat_tail (n / 64)
  rcases (by omega : n / 4096 = 0 ∨ n / 4096 = 13 ∨ n / 4096 ≠ 0 ∧ n / 4096 ≠ 13) with
    hlead | hlead | ⟨hlow, hmiddle⟩
  · rw [threeBytes, hlead]
    exact .threeLowest (by omega) (isTail_tail n)
  · rw [threeBytes, hlead]
    exact .threeBelowSurrogates (by omega) (isTail_tail n)
  · have ha := toNat_ofNat (show 0xE0 + n / 4096 < 256 by omega)
    have hne := @ne_of_toNat (UInt8.ofNat (0xE0 + n / 4096)) 0xED (by omega) (by omega)
    exact .three (by omega) hne (isTail_tail (n / 64)) (isTail_tail n)

theorem textUnit_pairBytes (h : 0x10000 ≤ n) (h' : n < 0x110000) : TextUnit (pairBytes n) := by
  have hhigh := lead_surrogate (0xD800 + (n - 0x10000) / 0x400) (by omega) (by omega)
  have hlow := lead_surrogate (0xDC00 + (n - 0x10000) % 0x400) (by omega) (by omega)
  have hb := toNat_tail ((0xD800 + (n - 0x10000) / 0x400) / 64)
  have he := toNat_tail ((0xDC00 + (n - 0x10000) % 0x400) / 64)
  rw [pairBytes, threeBytes, threeBytes, hhigh, hlow]
  exact .pair (by omega) (isTail_tail _) (by omega) (isTail_tail _)

theorem textUnit_encodeChar (c : Char) : TextUnit (encodeChar c) := by
  have hrange := toNat_range c
  simp only [encodeChar]
  split_ifs with hone htwo hthree
  · have ha : (UInt8.ofNat c.toNat).toNat = c.toNat := toNat_ofNat (by omega)
    exact .ascii (by omega)
  · by_cases hzero : c.toNat = 0
    · rw [hzero]
      exact .zero
    · exact textUnit_twoBytes (by omega) htwo
  · exact textUnit_threeBytes (by omega) hthree (by omega)
  · exact textUnit_pairBytes (by omega) (by omega)

theorem exists_two {a b : UInt8} (ha : 0xC2 ≤ a.toNat ∧ a.toNat ≤ 0xDF) (hb : isTail b = true) :
    ∃ char, encodeChar char = [a, b] := by
  have htail := isTail_iff.mp hb
  have hbounds : 0x80 ≤ two a b ∧ two a b < 0x800 := by
    unfold two
    omega
  obtain ⟨char, hchar⟩ := @exists_char (two a b) (by omega)
  refine ⟨char, ?_⟩
  rw [encodeChar, hchar, if_neg (by omega), if_pos hbounds.2, twoBytes_two (by omega) hb]

theorem exists_three {a b c : UInt8} (ha : 0xE0 ≤ a.toNat ∧ a.toNat ≤ 0xEF)
    (hb : isTail b = true) (hc : isTail c = true) (h : 0x800 ≤ three a b c)
    (hrange : three a b c < 0xD800 ∨ 0xDFFF < three a b c) :
    ∃ char, encodeChar char = [a, b, c] := by
  have hlt : three a b c < 0x10000 := by
    rw [isTail_iff] at hb hc
    unfold three
    omega
  obtain ⟨char, hchar⟩ := @exists_char (three a b c) (by omega)
  refine ⟨char, ?_⟩
  rw [encodeChar, hchar, if_neg (by omega), if_neg (by omega), if_pos hlt,
    threeBytes_three ha.1 hb hc]

theorem pairBytes_joinPair {high low : Nat} (hhigh : 0xD800 ≤ high ∧ high < 0xDC00)
    (hlow : 0xDC00 ≤ low ∧ low < 0xE000) :
    pairBytes (joinPair high low) = threeBytes high ++ threeBytes low := by
  have hhigh_eq : 0xD800 + (joinPair high low - 0x10000) / 0x400 = high := by
    unfold joinPair
    omega
  have hlow_eq : 0xDC00 + (joinPair high low - 0x10000) % 0x400 = low := by
    unfold joinPair
    omega
  rw [pairBytes, hhigh_eq, hlow_eq]

theorem exists_pair {high low : Nat} (hhigh : 0xD800 ≤ high ∧ high < 0xDC00)
    (hlow : 0xDC00 ≤ low ∧ low < 0xE000) :
    ∃ char, encodeChar char = threeBytes high ++ threeBytes low := by
  have hbounds : 0x10000 ≤ joinPair high low ∧ joinPair high low < 0x110000 := by
    unfold joinPair
    omega
  obtain ⟨char, hchar⟩ := @exists_char (joinPair high low) (by omega)
  refine ⟨char, ?_⟩
  rw [encodeChar, hchar, if_neg (by omega), if_neg (by omega), if_neg (by omega),
    pairBytes_joinPair hhigh hlow]

theorem exists_char_of_textUnit {unit : Bytes} (h : TextUnit unit) : ∃ c, encodeChar c = unit := by
  cases h with
  | @ascii a lead =>
    obtain ⟨char, hchar⟩ := @exists_char a.toNat (by omega)
    refine ⟨char, ?_⟩
    rw [encodeChar, hchar, if_pos (by omega), oneByte, UInt8.ofNat_toNat]
  | zero => exact ⟨'\x00', rfl⟩
  | two lead tail => exact exists_two lead tail
  | @threeLowest b c second tail =>
    have hlead : (0xE0 : UInt8).toNat = 0xE0 := rfl
    have htail := isTail_iff.mp tail
    have hbounds : 0x800 ≤ three 0xE0 b c ∧ three 0xE0 b c < 0x1000 := by
      unfold three
      omega
    exact exists_three (by omega) (isTail_iff.mpr (by omega)) tail hbounds.1 (by omega)
  | @three a b c lead ne second tail =>
    have hsecond := isTail_iff.mp second
    have htail := isTail_iff.mp tail
    have hne : a.toNat ≠ 0xED := fun heq => ne (UInt8.toNat_inj.mp heq)
    have hbounds : 0x800 ≤ three a b c ∧ (three a b c < 0xD800 ∨ 0xDFFF < three a b c) := by
      unfold three
      omega
    exact exists_three (by omega) second tail hbounds.1 hbounds.2
  | @threeBelowSurrogates b c second tail =>
    have hlead : (0xED : UInt8).toNat = 0xED := rfl
    have htail := isTail_iff.mp tail
    have hbounds : 0x800 ≤ three 0xED b c ∧ three 0xED b c < 0xD800 := by
      unfold three
      omega
    exact exists_three (by omega) (isTail_iff.mpr (by omega)) tail hbounds.1 (by omega)
  | @pair b c e f high highTail low lowTail =>
    have hlead : (0xED : UInt8).toNat = 0xED := rfl
    have hhighTail := isTail_iff.mp highTail
    have hlowTail := isTail_iff.mp lowTail
    have hhigh : 0xD800 ≤ three 0xED b c ∧ three 0xED b c < 0xDC00 := by
      unfold three
      omega
    have hlow : 0xDC00 ≤ three 0xED e f ∧ three 0xED e f < 0xE000 := by
      unfold three
      omega
    obtain ⟨char, hchar⟩ := exists_pair hhigh hlow
    refine ⟨char, ?_⟩
    rw [hchar, threeBytes_three (by omega) (isTail_iff.mpr (by omega)) highTail,
      threeBytes_three (by omega) (isTail_iff.mpr (by omega)) lowTail]
    rfl

theorem TextUnit.bounds {unit : Bytes} (h : TextUnit unit) :
    ∀ byte ∈ unit, byte ≠ 0 ∧ byte < 0xF0 := by
  cases h with
  | ascii lead => simpa using bounds_of_toNat (by omega)
  | zero => simp
  | two lead tail => simpa using ⟨bounds_of_toNat (by omega), bounds_of_isTail tail⟩
  | threeLowest second tail => simpa using ⟨bounds_of_toNat (by omega), bounds_of_isTail tail⟩
  | three lead ne second tail =>
    simpa using ⟨bounds_of_toNat (by omega), bounds_of_isTail second, bounds_of_isTail tail⟩
  | threeBelowSurrogates second tail =>
    simpa using ⟨bounds_of_toNat (by omega), bounds_of_isTail tail⟩
  | pair high highTail low lowTail =>
    simpa using ⟨bounds_of_toNat (by omega), bounds_of_isTail highTail, bounds_of_toNat (by omega),
      bounds_of_isTail lowTail⟩

theorem unitLength_eq (c : Char) : unitLength c =
    if c.toNat = 0 then 2 else if c.toNat ≤ 0x7F then 1 else if c.toNat ≤ 0x7FF then 2
    else if c.toNat ≤ 0xFFFF then 3 else 6 := by
  have hzero : c = '\x00' ↔ c.toNat = 0 := Char.toNat_inj.symm
  simp only [unitLength, hzero]
  rfl

theorem length_encodeChar (c : Char) : (encodeChar c).length = unitLength c := by
  rw [unitLength_eq]
  simp only [encodeChar, apply_ite List.length, oneByte, twoBytes, pairBytes, threeBytes,
    List.length_append, List.length_cons, List.length_nil]
  split_ifs <;> omega

end Characters

/-! ## Texts -/

theorem textUnits_encode (text : List Char) : TextUnits (text.flatMap encodeChar) := by
  induction text with
  | nil => exact .nil
  | cons c text ih => exact .cons (textUnit_encodeChar c) ih

theorem exists_text_of_textUnits {payload : Bytes} (h : TextUnits payload) :
    ∃ text, encode text = payload := by
  induction h with
  | nil => exact ⟨"", rfl⟩
  | cons first more ih =>
    obtain ⟨c, rfl⟩ := exists_char_of_textUnit first
    obtain ⟨text, rfl⟩ := ih
    refine ⟨String.ofList (c :: text.toList), ?_⟩
    rw [encode, String.toList_ofList, List.flatMap_cons]
    rfl

/-- A text is read back from what is written for it, which holds neither a zero byte nor the first
byte of a form of four bytes, and takes the bytes of its characters. A payload that is shown and
written again is the same exactly if it is a row of units. -/
theorem written_exactly_in_units (text : String) (payload : Bytes) :
    decode (encode text) = text ∧ (∀ byte ∈ encode text, byte ≠ 0 ∧ byte < 0xF0) ∧
      (encode text).length = (text.toList.map unitLength).sum ∧
      (encode (decode payload) = payload ↔ TextUnits payload) := by
  refine ⟨decode_encode text, ?_, ?_, ?_⟩
  · intro byte hbyte
    obtain ⟨c, _, hc⟩ := List.mem_flatMap.mp hbyte
    exact (textUnit_encodeChar c).bounds byte hc
  · rw [encode, List.length_flatMap]
    simp only [length_encodeChar]
  · constructor
    · intro h
      rw [← h]
      exact textUnits_encode _
    · intro h
      obtain ⟨text', rfl⟩ := exists_text_of_textUnits h
      rw [decode_encode]

/-- Plain UTF-8 of four bytes is shown as it stands and written anew as a pair. -/
example : encode (decode [0xF0, 0x9F, 0x98, 0x80]) = [0xED, 0xA0, 0xBD, 0xED, 0xB8, 0x80] := by
  decide +kernel

end JarText.Text.ModifiedUtf8
