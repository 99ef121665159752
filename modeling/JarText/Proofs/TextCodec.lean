import Mathlib
import JarText.Text.ModifiedUtf8

/-!
# Texts as modified UTF-8

`ModifiedUtf8.decode_encode`: a text is read back from its payload. Reading tries plain UTF-8 first,
which is safe: a character whose two encodings differ begins with bytes that plain UTF-8 refuses.
-/

set_option autoImplicit false

namespace JarText.Text

theorem toNat_range (c : Char) :
    c.toNat < 0xD800 ∨ (0xDFFF < c.toNat ∧ c.toNat < 0x110000) := c.valid

theorem isSurrogate_toNat (c : Char) : isSurrogate c.toNat = false := by
  have hrange := toNat_range c
  simp only [isSurrogate, Bool.and_eq_false_iff, decide_eq_false_iff_not]
  omega

namespace Utf8

theorem toNat_ofNat {n : Nat} (h : n < 256) : (UInt8.ofNat n).toNat = n :=
  UInt8.toNat_ofNat_of_lt' h

theorem toNat_tail (n : Nat) : (UInt8.ofNat (0x80 + n % 64)).toNat = 0x80 + n % 64 :=
  toNat_ofNat (by omega)

theorem isTail_tail (n : Nat) : isTail (UInt8.ofNat (0x80 + n % 64)) = true := by
  rw [isTail, toNat_tail]
  simp only [Bool.and_eq_true, decide_eq_true_eq]
  omega

theorem two_twoBytes {n : Nat} (h : n < 0x800) :
    two (UInt8.ofNat (0xC0 + n / 64)) (UInt8.ofNat (0x80 + n % 64)) = n := by
  unfold two
  rw [toNat_ofNat (show 0xC0 + n / 64 < 256 by omega), toNat_tail]
  omega

theorem three_threeBytes {n : Nat} (h : n < 0x10000) :
    three (UInt8.ofNat (0xE0 + n / 4096)) (UInt8.ofNat (0x80 + n / 64 % 64))
      (UInt8.ofNat (0x80 + n % 64)) = n := by
  unfold three
  rw [toNat_ofNat (show 0xE0 + n / 4096 < 256 by omega), toNat_tail, toNat_tail]
  omega

/-! The first byte decides how many follow. -/

section Heads

variable {a b c : UInt8} {rest : Bytes}

theorem next?_one (ha : a.toNat < 0x80) : next? (a :: rest) = some (Char.ofNat a.toNat, rest) := by
  simp only [next?.eq_def, if_pos ha]

theorem next?_refused (ha : 0x80 ≤ a.toNat) (ha' : a.toNat < 0xC2) : next? (a :: rest) = none := by
  have hone : ¬ a.toNat < 0x80 := by omega
  simp only [next?.eq_def, if_neg hone, if_pos ha']

theorem next?_two (ha : 0xC2 ≤ a.toNat) (ha' : a.toNat < 0xE0) (hb : isTail b = true) :
    next? (a :: b :: rest) = some (Char.ofNat (two a b), rest) := by
  rw [next?, if_neg (by omega), if_neg (by omega), if_pos ha']
  exact if_pos hb

theorem next?_three (ha : 0xE0 ≤ a.toNat) (ha' : a.toNat < 0xF0) :
    next? (a :: b :: c :: rest) =
      if isTail b && isTail c && 0x800 ≤ three a b c && !isSurrogate (three a b c) then
        some (Char.ofNat (three a b c), rest)
      else none := by
  rw [next?, if_neg (by omega), if_neg (by omega), if_neg (by omega), if_pos ha']

end Heads

theorem next?_threeBytes {n : Nat} (h : 0x800 ≤ n) (h' : n < 0x10000)
    (hs : isSurrogate n = false) (rest : Bytes) :
    next? (threeBytes n ++ rest) = some (Char.ofNat n, rest) := by
  have ha : (UInt8.ofNat (0xE0 + n / 4096)).toNat = 0xE0 + n / 4096 := toNat_ofNat (by omega)
  have hread := @next?_three (UInt8.ofNat (0xE0 + n / 4096)) (UInt8.ofNat (0x80 + n / 64 % 64))
    (UInt8.ofNat (0x80 + n % 64)) rest (by rw [ha]; omega) (by rw [ha]; omega)
  rw [three_threeBytes h', isTail_tail, isTail_tail, hs, if_pos (by simpa using h)] at hread
  exact hread

/-- A surrogate is no character, so plain UTF-8 refuses a pair at its first half. -/
theorem next?_surrogate {n : Nat} (h : n < 0x10000) (hs : isSurrogate n = true) (rest : Bytes) :
    next? (threeBytes n ++ rest) = none := by
  have hbounds : 0xD800 ≤ n ∧ n < 0xE000 := by simpa [isSurrogate] using hs
  have ha : (UInt8.ofNat (0xE0 + n / 4096)).toNat = 0xE0 + n / 4096 := toNat_ofNat (by omega)
  have hread := @next?_three (UInt8.ofNat (0xE0 + n / 4096)) (UInt8.ofNat (0x80 + n / 64 % 64))
    (UInt8.ofNat (0x80 + n % 64)) rest (by rw [ha]; omega) (by rw [ha]; omega)
  rw [three_threeBytes h, hs, if_neg (by simp)] at hread
  exact hread

theorem lead_surrogate (n : Nat) (h : 0xD000 ≤ n) (h' : n < 0xE000) :
    UInt8.ofNat (0xE0 + n / 4096) = 0xED := by
  have hdiv : n / 4096 = 13 := by omega
  rw [hdiv]
  rfl

end Utf8

namespace ModifiedUtf8

open Utf8

section Heads

variable {a b c : UInt8} {rest : Bytes}

theorem ne_of_toNat {a : UInt8} {n : Nat} (hn : n < 256) (h : a.toNat ≠ n) : a ≠ UInt8.ofNat n :=
  fun heq => h (by rw [heq, toNat_ofNat hn])

theorem next?_one (ha : 0 < a.toNat) (ha' : a.toNat < 0x80) :
    next? (a :: rest) = some (Char.ofNat a.toNat, rest) := by
  have h0 : a ≠ 0 := @ne_of_toNat a 0 (by omega) (by omega)
  simp only [next?.eq_def, if_neg h0, if_pos ha']

theorem next?_two (ha : 0xC2 ≤ a.toNat) (ha' : a.toNat < 0xE0) (hb : isTail b = true) :
    next? (a :: b :: rest) = some (Char.ofNat (two a b), rest) := by
  have h0 : a ≠ 0 := @ne_of_toNat a 0 (by omega) (by omega)
  have hC0 : a ≠ 0xC0 := @ne_of_toNat a 0xC0 (by omega) (by omega)
  rw [next?, if_neg h0, if_neg (by omega), if_neg hC0, if_neg (by omega), if_pos ha']
  exact if_pos hb

theorem next?_three (ha : 0xE0 ≤ a.toNat) (ha' : a.toNat < 0xF0) (hb : isTail b = true)
    (hc : isTail c = true) (hn : 0x800 ≤ three a b c) (hs : isSurrogate (three a b c) = false) :
    next? (a :: b :: c :: rest) = some (Char.ofNat (three a b c), rest) := by
  have h0 : a ≠ 0 := @ne_of_toNat a 0 (by omega) (by omega)
  have hC0 : a ≠ 0xC0 := @ne_of_toNat a 0xC0 (by omega) (by omega)
  rw [next?, if_neg h0, if_neg (by omega), if_neg hC0, if_neg (by omega), if_neg (by omega),
    if_pos ha']
  simp [hb, hc, hs, Nat.not_lt.mpr hn]

theorem next?_pair {d e f : UInt8} (rest : Bytes) (ha : a = 0xED) (hb : isTail b = true)
    (hc : isTail c = true)
    (hhigh : 0xD800 ≤ three a b c) (hhigh' : three a b c < 0xDC00) (hd : d = 0xED)
    (he : isTail e = true) (hf : isTail f = true) (hlow : 0xDC00 ≤ three d e f)
    (hlow' : three d e f < 0xE000) :
    next? (a :: b :: c :: d :: e :: f :: rest) =
      some (Char.ofNat (joinPair (three a b c) (three d e f)), rest) := by
  subst ha hd
  have hs : isSurrogate (three 0xED b c) = true := by
    simp only [isSurrogate, Bool.and_eq_true, decide_eq_true_eq]
    omega
  have hn : ¬ three 0xED b c < 0x800 := by omega
  have hle : ¬ 0xDC00 ≤ three 0xED b c := by omega
  rw [next?, if_neg (by decide), if_neg (by decide), if_neg (by decide), if_neg (by decide),
    if_neg (by decide), if_pos (by decide)]
  simp [hb, hc, he, hf, hs, hn, hle, hlow, hlow']

end Heads

/-! A character is read back from its own bytes. -/

theorem next?_twoBytes {n : Nat} (h : 0x80 ≤ n) (h' : n < 0x800) (rest : Bytes) :
    next? (twoBytes n ++ rest) = some (Char.ofNat n, rest) := by
  have ha : (UInt8.ofNat (0xC0 + n / 64)).toNat = 0xC0 + n / 64 := toNat_ofNat (by omega)
  have hread := @next?_two (UInt8.ofNat (0xC0 + n / 64)) (UInt8.ofNat (0x80 + n % 64)) rest
    (by rw [ha]; omega) (by rw [ha]; omega) (isTail_tail n)
  rwa [two_twoBytes h'] at hread

theorem next?_threeBytes {n : Nat} (h : 0x800 ≤ n) (h' : n < 0x10000)
    (hs : isSurrogate n = false) (rest : Bytes) :
    next? (threeBytes n ++ rest) = some (Char.ofNat n, rest) := by
  have ha : (UInt8.ofNat (0xE0 + n / 4096)).toNat = 0xE0 + n / 4096 := toNat_ofNat (by omega)
  have hread := @next?_three (UInt8.ofNat (0xE0 + n / 4096)) (UInt8.ofNat (0x80 + n / 64 % 64))
    (UInt8.ofNat (0x80 + n % 64)) rest (by rw [ha]; omega) (by rw [ha]; omega) (isTail_tail _)
    (isTail_tail n) (by rwa [three_threeBytes h']) (by rwa [three_threeBytes h'])
  rwa [three_threeBytes h'] at hread

theorem next?_pairBytes {n : Nat} (h : 0x10000 ≤ n) (h' : n < 0x110000) (rest : Bytes) :
    next? (pairBytes n ++ rest) = some (Char.ofNat n, rest) := by
  have hhigh := @three_threeBytes (0xD800 + (n - 0x10000) / 0x400) (by omega)
  have hlow := @three_threeBytes (0xDC00 + (n - 0x10000) % 0x400) (by omega)
  have hread := next?_pair rest
    (lead_surrogate (0xD800 + (n - 0x10000) / 0x400) (by omega) (by omega))
    (isTail_tail ((0xD800 + (n - 0x10000) / 0x400) / 64))
    (isTail_tail (0xD800 + (n - 0x10000) / 0x400)) (by rw [hhigh]; omega) (by rw [hhigh]; omega)
    (lead_surrogate (0xDC00 + (n - 0x10000) % 0x400) (by omega) (by omega))
    (isTail_tail ((0xDC00 + (n - 0x10000) % 0x400) / 64))
    (isTail_tail (0xDC00 + (n - 0x10000) % 0x400)) (by rw [hlow]; omega) (by rw [hlow]; omega)
  have hjoin : joinPair (0xD800 + (n - 0x10000) / 0x400) (0xDC00 + (n - 0x10000) % 0x400) = n := by
    unfold joinPair
    omega
  rw [hhigh, hlow, hjoin] at hread
  exact hread

theorem next?_encodeChar (c : Char) (rest : Bytes) :
    next? (encodeChar c ++ rest) = some (c, rest) := by
  have hrange := toNat_range c
  have hread : next? (encodeChar c ++ rest) = some (Char.ofNat c.toNat, rest) := by
    simp only [encodeChar]
    split
    · rename_i hone
      have ha : (UInt8.ofNat c.toNat).toNat = c.toNat := toNat_ofNat (by omega)
      have hread := @next?_one (UInt8.ofNat c.toNat) rest (by omega) (by omega)
      rwa [ha] at hread
    · rename_i hone
      split
      · rename_i htwo
        by_cases hzero : c.toNat = 0
        · rw [hzero]
          rfl
        · exact next?_twoBytes (by omega) htwo rest
      · split
        · rename_i htwo hthree
          exact next?_threeBytes (by omega) hthree (isSurrogate_toNat c) rest
        · exact next?_pairBytes (by omega) (by omega) rest
  rwa [Char.ofNat_toNat] at hread

theorem encodeChar_ne_nil (c : Char) : encodeChar c ≠ [] := by
  simp only [encodeChar]
  split
  · simp [oneByte]
  · split
    · simp [twoBytes]
    · split <;> simp [threeBytes, pairBytes]

def isPlain (c : Char) : Bool := 0 < c.toNat && c.toNat < 0x10000

/-- Plain UTF-8 reads the characters that both encodings share and refuses the others. -/
theorem plain_next?_encodeChar (c : Char) (rest : Bytes) :
    Utf8.next? (encodeChar c ++ rest) = if isPlain c then some (c, rest) else none := by
  have hrange := toNat_range c
  have hread : Utf8.next? (encodeChar c ++ rest) =
      if isPlain c then some (Char.ofNat c.toNat, rest) else none := by
    simp only [encodeChar, isPlain, Bool.and_eq_true, decide_eq_true_eq]
    split
    · rename_i hone
      have ha : (UInt8.ofNat c.toNat).toNat = c.toNat := toNat_ofNat (by omega)
      have hread := @Utf8.next?_one (UInt8.ofNat c.toNat) rest (by omega)
      rw [if_pos ⟨hone.1, by omega⟩]
      rwa [ha] at hread
    · rename_i hone
      split
      · rename_i htwo
        have ha : (UInt8.ofNat (0xC0 + c.toNat / 64)).toNat = 0xC0 + c.toNat / 64 :=
          toNat_ofNat (by omega)
        by_cases hzero : c.toNat = 0
        · rw [if_neg (by omega)]
          exact Utf8.next?_refused (by omega) (by omega)
        · rw [if_pos (by omega)]
          have hread := @Utf8.next?_two (UInt8.ofNat (0xC0 + c.toNat / 64))
            (UInt8.ofNat (0x80 + c.toNat % 64)) rest (by omega) (by omega) (isTail_tail _)
          rwa [two_twoBytes htwo] at hread
      · split
        · rename_i htwo hthree
          rw [if_pos (by omega)]
          exact Utf8.next?_threeBytes (by omega) hthree (isSurrogate_toNat c) rest
        · rw [if_neg (by omega), pairBytes, List.append_assoc]
          have hhigh : isSurrogate (0xD800 + (c.toNat - 0x10000) / 0x400) = true := by
            simp only [isSurrogate, Bool.and_eq_true, decide_eq_true_eq]
            omega
          exact Utf8.next?_surrogate (by omega) hhigh _
  rwa [Char.ofNat_toNat] at hread

/-- A row of characters is read if each of them is. -/
theorem decodeWith_flatMap {next? : Bytes → Option (Char × Bytes)} {encode : Char → Bytes}
    {accepts : Char → Bool} (hne : ∀ c, encode c ≠ [])
    (hnext : ∀ c rest, next? (encode c ++ rest) = if accepts c then some (c, rest) else none)
    {text : List Char} {fuel : Nat} (hfuel : text.length ≤ fuel) (done : List Char) :
    decodeWith next? fuel done (text.flatMap encode) =
      if text.all accepts then some (done.reverse ++ text) else none := by
  induction text generalizing fuel done with
  | nil => cases fuel <;> simp [decodeWith]
  | cons c text ih =>
    cases fuel with
    | zero => simp at hfuel
    | succ fuel =>
      have hcons : ∃ byte bytes, encode c ++ text.flatMap encode = byte :: bytes :=
        List.exists_cons_of_ne_nil (by simp [hne c])
      obtain ⟨byte, bytes, hbytes⟩ := hcons
      have hstep := hnext c (text.flatMap encode)
      rw [List.flatMap_cons, hbytes] at *
      simp only [decodeWith, hstep]
      cases haccepts : accepts c with
      | false => simp [haccepts]
      | true => simp [haccepts, ih (Nat.le_of_succ_le_succ hfuel)]

theorem length_le_flatMap {encode : Char → Bytes} (hne : ∀ c, encode c ≠ []) (text : List Char) :
    text.length ≤ (text.flatMap encode).length := by
  induction text with
  | nil => simp
  | cons c text ih =>
    have hpos := List.length_pos_of_ne_nil (hne c)
    simp only [List.flatMap_cons, List.length_append, List.length_cons]
    omega

theorem decodeStrict?_encode (text : String) : decodeStrict? (encode text) = some text := by
  have hread := @decodeWith_flatMap _ _ (fun _ => true) encodeChar_ne_nil next?_encodeChar _ _
    (length_le_flatMap encodeChar_ne_nil text.toList) []
  rw [decodeStrict?, encode, hread]
  simp

theorem plain_decode?_encode (text : String) :
    Utf8.decode? (encode text) = if text.toList.all isPlain then some text else none := by
  have hread := decodeWith_flatMap encodeChar_ne_nil plain_next?_encodeChar
    (length_le_flatMap encodeChar_ne_nil text.toList) []
  rw [Utf8.decode?, encode, hread]
  split <;> simp

/-- A text is read back from its payload. -/
theorem decode_encode (text : String) : decode (encode text) = text := by
  rw [decode, plain_decode?_encode, decodeStrict?_encode]
  split
  · rename_i h
    split at h
    · exact (Option.some.inj h).symm
    · cases h
  · rfl

end ModifiedUtf8

end JarText.Text
