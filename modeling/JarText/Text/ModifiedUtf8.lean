import JarText.Text.Utf8

/-!
# Modified UTF-8

The encoding of the text in a class file. It has no zero byte, since the character zero takes two
bytes, and no form of four bytes, since a supplementary character is written as its surrogate pair.
-/

set_option autoImplicit false

namespace JarText.Text.ModifiedUtf8

open Utf8

/-- The two surrogates of a supplementary code point, three bytes each. -/
def pairBytes (n : Nat) : Bytes :=
  threeBytes (0xD800 + (n - 0x10000) / 0x400) ++ threeBytes (0xDC00 + (n - 0x10000) % 0x400)

def joinPair (high low : Nat) : Nat :=
  0x10000 + (high - 0xD800) * 0x400 + (low - 0xDC00)

def encodeChar (c : Char) : Bytes :=
  let n := c.toNat
  if 0 < n ∧ n < 0x80 then oneByte n
  else if n < 0x800 then twoBytes n
  else if n < 0x10000 then threeBytes n
  else pairBytes n

def encode (text : String) : Bytes :=
  text.toList.flatMap encodeChar

def next? : Bytes → Option (Char × Bytes)
  | [] => none
  | a :: rest =>
    if a = 0 then none
    else if a.toNat < 0x80 then some (Char.ofNat a.toNat, rest)
    else if a = 0xC0 then
      match rest with
      | b :: rest => if b = 0x80 then some ('\x00', rest) else none
      | [] => none
    else if a.toNat < 0xC2 then none
    else if a.toNat < 0xE0 then
      match rest with
      | b :: rest => if isTail b then some (Char.ofNat (two a b), rest) else none
      | [] => none
    else if a.toNat < 0xF0 then
      match rest with
      | b :: c :: rest =>
        let n := three a b c
        if !(isTail b && isTail c) || n < 0x800 then none
        else if !isSurrogate n then some (Char.ofNat n, rest)
        else if 0xDC00 ≤ n then none
        else
          match rest with
          | d :: e :: f :: rest =>
            let low := three d e f
            if d = 0xED && isTail e && isTail f && 0xDC00 ≤ low && low < 0xE000 then
              some (Char.ofNat (joinPair n low), rest)
            else none
          | _ => none
      | _ => none
    else none

/-- The text that the bytes are, if they are modified UTF-8 throughout. -/
def decodeStrict? (bytes : Bytes) : Option String :=
  (decodeWith next? bytes.length [] bytes).map String.ofList

/-- The text of a payload. Plain UTF-8 is taken as it stands, then modified UTF-8 is tried, and
what is neither is shown as broken UTF-8. -/
def decode (bytes : Bytes) : String :=
  match Utf8.decode? bytes with
  | some text => text
  | none =>
    match decodeStrict? bytes with
    | some text => text
    | none => decodeLossy bytes

end JarText.Text.ModifiedUtf8
