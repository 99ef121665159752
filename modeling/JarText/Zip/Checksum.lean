import JarText.Bytes

/-!
# Checksums

The checksum of an entry is the remainder of its content by a polynomial of degree 32, taken from
the lowest bit of each byte on, with the register inverted before and after.
-/

set_option autoImplicit false

namespace JarText.Zip

/-- The polynomial without its leading term, lowest power in the highest bit. -/
def polynomial : UInt32 := 0xEDB88320

def divideBit (register : UInt32) : UInt32 :=
  if register &&& 1 = 1 then (register >>> 1) ^^^ polynomial else register >>> 1

def takeByte (register : UInt32) (byte : UInt8) : UInt32 :=
  Nat.repeat divideBit 8 (register ^^^ byte.toUInt32)

def checksum (content : Bytes) : UInt32 :=
  content.foldl takeByte 0xFFFFFFFF ^^^ 0xFFFFFFFF

end JarText.Zip
