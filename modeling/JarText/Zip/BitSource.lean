import JarText.Bytes

/-!
# Bits

A source gives the bits of a byte string one by one, each byte from its lowest bit up. A number is
written lowest bit first.
-/

set_option autoImplicit false

namespace JarText.Zip

/-- The bits of `n`, lowest first. -/
def bitsOf : (width : Nat) → Nat → List Bool
  | 0, _ => []
  | width + 1, n => (n % 2 == 1) :: bitsOf width (n / 2)

def ofBits : List Bool → Nat
  | [] => 0
  | bit :: rest => bit.toNat + 2 * ofBits rest

/-- The bits left of a byte that was begun, and the bytes that follow it. -/
structure BitSource where
  pending : List Bool
  rest : Bytes
  deriving Repr, DecidableEq

namespace BitSource

def ofBytes (bytes : Bytes) : BitSource := ⟨[], bytes⟩

def next? (source : BitSource) : Option (Bool × BitSource) :=
  match source.pending with
  | bit :: pending => some (bit, { source with pending })
  | [] =>
    match source.rest with
    | byte :: rest => some (byte.toNat % 2 == 1, ⟨bitsOf 7 (byte.toNat / 2), rest⟩)
    | [] => none

def takeBits? : (width : Nat) → BitSource → Option (Nat × BitSource)
  | 0, source => some (0, source)
  | width + 1, source => do
    let (bit, source) ← source.next?
    let (high, source) ← takeBits? width source
    return (bit.toNat + 2 * high, source)

/-- Leaves aside what is left of a byte that was begun. -/
def align (source : BitSource) : BitSource := { source with pending := [] }

end BitSource

end JarText.Zip
