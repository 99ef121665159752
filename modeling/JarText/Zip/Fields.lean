import JarText.Bytes
import JarText.Fault

/-!
# Fields of a record

The records of a zip file are rows of numbers, lowest byte first, and of bytes.
-/

set_option autoImplicit false

namespace JarText.Zip

/-- Takes fields off the front of a byte string. -/
abbrev Fields (α : Type) := StateT Bytes (Except ZipFault) α

namespace Fields

def bytes (count : Nat) : Fields Bytes := fun rest =>
  let chunk := rest.take count
  if chunk.length < count then .error .endOfBytes else .ok (chunk, rest.drop count)

def number (width : Nat) : Fields Nat :=
  Bytes.littleEndianValue <$> bytes width

def skip (count : Nat) : Fields Unit := discard (bytes count)

/-- Takes `count` records in a row. -/
def manyFrom {α : Type} (record : Fields α) : (count : Nat) → (done : List α) → Fields (List α)
  | 0, done => fun rest => .ok (done.reverse, rest)
  | count + 1, done => fun rest =>
    match record rest with
    | .error fault => .error fault
    | .ok (item, rest) => manyFrom record count (item :: done) rest

end Fields

def signature (n : Nat) : Bytes := Bytes.littleEndian 4 n

def entrySignature : Bytes := signature 0x04034B50

def directorySignature : Bytes := signature 0x02014B50

def endSignature : Bytes := signature 0x06054B50

def longEndSignature : Bytes := signature 0x06064B50

def locatorSignature : Bytes := signature 0x07064B50

/-- The number that a field of four bytes holds in place of one that does not fit. -/
def longMark : Nat := 0xFFFFFFFF

/-- The number that a field of two bytes holds in place of one that does not fit. -/
def shortMark : Nat := 0xFFFF

end JarText.Zip
