import JarText.Bytes

/-!
# UTF-8

A text is valid UTF-8 if it can be read character by character, each in its shortest form and none
of them a surrogate. A text that is not valid can still be shown: each longest piece that could
have begun a character, or else a single byte, becomes a replacement character.
-/

set_option autoImplicit false

namespace JarText.Text

/-- Whether `n` is one half of a surrogate pair and no character. -/
def isSurrogate (n : Nat) : Bool := 0xD800 ≤ n && n < 0xE000

/-- Reads a whole byte string with a reader of one character. `fuel` bounds their number. -/
def decodeWith (next? : Bytes → Option (Char × Bytes)) :
    (fuel : Nat) → (done : List Char) → Bytes → Option (List Char)
  | _, done, [] => some done.reverse
  | 0, _, _ :: _ => none
  | fuel + 1, done, bytes =>
    match next? bytes with
    | none => none
    | some (c, rest) => decodeWith next? fuel (c :: done) rest

namespace Utf8

/-- Whether a byte continues a character. -/
def isTail (byte : UInt8) : Bool := 0x80 ≤ byte.toNat && byte.toNat < 0xC0

def two (a b : UInt8) : Nat := (a.toNat - 0xC0) * 64 + (b.toNat - 0x80)

def three (a b c : UInt8) : Nat :=
  ((a.toNat - 0xE0) * 64 + (b.toNat - 0x80)) * 64 + (c.toNat - 0x80)

def four (a b c d : UInt8) : Nat :=
  (((a.toNat - 0xF0) * 64 + (b.toNat - 0x80)) * 64 + (c.toNat - 0x80)) * 64 + (d.toNat - 0x80)

def oneByte (n : Nat) : Bytes := [UInt8.ofNat n]

def twoBytes (n : Nat) : Bytes :=
  [UInt8.ofNat (0xC0 + n / 64), UInt8.ofNat (0x80 + n % 64)]

def threeBytes (n : Nat) : Bytes :=
  [UInt8.ofNat (0xE0 + n / 4096), UInt8.ofNat (0x80 + n / 64 % 64), UInt8.ofNat (0x80 + n % 64)]

def fourBytes (n : Nat) : Bytes :=
  [UInt8.ofNat (0xF0 + n / 262144), UInt8.ofNat (0x80 + n / 4096 % 64),
    UInt8.ofNat (0x80 + n / 64 % 64), UInt8.ofNat (0x80 + n % 64)]

def encodeChar (c : Char) : Bytes :=
  let n := c.toNat
  if n < 0x80 then oneByte n
  else if n < 0x800 then twoBytes n
  else if n < 0x10000 then threeBytes n
  else fourBytes n

def encode (text : String) : Bytes :=
  text.toList.flatMap encodeChar

def size (text : List Char) : Nat :=
  text.foldl (fun n c => n + c.utf8Size) 0

def next? : Bytes → Option (Char × Bytes)
  | [] => none
  | a :: rest =>
    if a.toNat < 0x80 then some (Char.ofNat a.toNat, rest)
    else if a.toNat < 0xC2 then none
    else if a.toNat < 0xE0 then
      match rest with
      | b :: rest => if isTail b then some (Char.ofNat (two a b), rest) else none
      | [] => none
    else if a.toNat < 0xF0 then
      match rest with
      | b :: c :: rest =>
        let n := three a b c
        if isTail b && isTail c && 0x800 ≤ n && !isSurrogate n then some (Char.ofNat n, rest)
        else none
      | _ => none
    else if a.toNat < 0xF5 then
      match rest with
      | b :: c :: d :: rest =>
        let n := four a b c d
        if isTail b && isTail c && isTail d && 0x10000 ≤ n && n < 0x110000 then
          some (Char.ofNat n, rest)
        else none
      | _ => none
    else none

def decode? (bytes : Bytes) : Option String :=
  (decodeWith next? bytes.length [] bytes).map String.ofList

/-- Whether `b` may follow the first byte `a` of a character of three or four bytes. -/
def mayFollow (a b : UInt8) : Bool :=
  isTail b &&
    if a = 0xE0 then 0xA0 ≤ b
    else if a = 0xED then b < 0xA0
    else if a = 0xF0 then 0x90 ≤ b
    else if a = 0xF4 then b < 0x90
    else 0xE1 ≤ a && a < 0xF4

/-- How many bytes one replacement character stands for, where no character can be read. -/
def brokenLength : Bytes → Nat
  | a :: b :: rest =>
    if !mayFollow a b then 1
    else if a < 0xF0 then 2
    else
      match rest with
      | c :: _ => if isTail c then 3 else 2
      | [] => 2
  | _ => 1

def decodeLossyFrom : (fuel : Nat) → (done : List Char) → Bytes → List Char
  | _, done, [] => done.reverse
  | 0, done, _ :: _ => done.reverse
  | fuel + 1, done, bytes =>
    match next? bytes with
    | some (c, rest) => decodeLossyFrom fuel (c :: done) rest
    | none => decodeLossyFrom fuel ('\uFFFD' :: done) (bytes.drop (brokenLength bytes))

/-- The text of the bytes, with a replacement character for each piece that is none. -/
def decodeLossy (bytes : Bytes) : String :=
  String.ofList (decodeLossyFrom bytes.length [] bytes)

end Utf8

end JarText.Text
