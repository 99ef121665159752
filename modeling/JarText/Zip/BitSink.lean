import JarText.Bytes

/-!
# Writing bits

A sink takes numbers of so many bits, lowest bit first, and fills bytes with them from the lowest bit
up. What does not fill a byte yet is pending.
-/

set_option autoImplicit false

namespace JarText.Zip

structure BitSink where
  /-- The bytes that are full. -/
  bytes : Array UInt8
  /-- The number that the bits after them form. -/
  pending : Nat
  /-- Two to the number of those bits. -/
  weight : Nat
  deriving Repr, DecidableEq

/-- A number of so many bits. Its size is two to their number. -/
structure Word where
  size : Nat
  value : Nat
  deriving Repr, DecidableEq

namespace Word

def nothing : Word := ⟨1, 0⟩

def ofBits (width value : Nat) : Word := ⟨Nat.pow 2 width, value⟩

end Word

namespace BitSink

def empty : BitSink := ⟨#[], 0, 1⟩

/-- Moves the bytes that are full out of the pending bits. -/
def settle (bytes : Array UInt8) (pending weight : Nat) : BitSink :=
  if 256 ≤ weight then settle (bytes.push (UInt8.ofNat pending)) (pending / 256) (weight / 256)
  else ⟨bytes, pending, weight⟩
termination_by weight
decreasing_by omega

/-- Takes the bits of a word. -/
def put (sink : BitSink) (word : Word) : BitSink :=
  settle sink.bytes (sink.pending + word.value * sink.weight) (sink.weight * word.size)

def putBits (sink : BitSink) (width value : Nat) : BitSink :=
  sink.put (.ofBits width value)

/-- Fills the byte that was begun with zeros. -/
def align (sink : BitSink) : BitSink :=
  if sink.weight = 1 then sink else ⟨sink.bytes.push (UInt8.ofNat sink.pending), 0, 1⟩

/-- Takes bytes where a byte begins. -/
def putBytes (sink : BitSink) (bytes : Bytes) : BitSink :=
  { sink with bytes := sink.bytes ++ bytes }

/-- The bits that are pending, without the bytes before them. -/
def remainder (sink : BitSink) : BitSink := { sink with bytes := #[] }

/-- The bits of a sink that went on from the remainder of this one. -/
def append (sink more : BitSink) : BitSink := { more with bytes := sink.bytes ++ more.bytes }

end BitSink

end JarText.Zip
