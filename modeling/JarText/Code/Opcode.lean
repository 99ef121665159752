/-!
# Opcodes

The operand layout of every assigned opcode.
-/

set_option autoImplicit false

namespace JarText

/-- What follows an opcode. -/
inductive Layout where
  | fixed (length : Nat)
  /-- Padding, a default, two bounds and a jump table. -/
  | tableSwitch
  /-- Padding, a default, a number of pairs and the pairs. -/
  | lookupSwitch
  /-- Another opcode with a longer operand. -/
  | wide
  deriving Repr, DecidableEq

namespace Opcode

def ldc : UInt8 := 0x12
def ldcW : UInt8 := 0x13
def iinc : UInt8 := 0x84
def invokeInterface : UInt8 := 0xB9

def layout? (opcode : UInt8) : Option Layout :=
  let n := opcode.toNat
  if n ≤ 0x0F then some (.fixed 0)
  else if n = 0x10 then some (.fixed 1)
  else if n = 0x11 then some (.fixed 2)
  else if n = 0x12 then some (.fixed 1)
  else if n ≤ 0x14 then some (.fixed 2)
  else if n ≤ 0x19 then some (.fixed 1)
  else if n ≤ 0x35 then some (.fixed 0)
  else if n ≤ 0x3A then some (.fixed 1)
  else if n ≤ 0x83 then some (.fixed 0)
  else if n = 0x84 then some (.fixed 2)
  else if n ≤ 0x98 then some (.fixed 0)
  else if n ≤ 0xA8 then some (.fixed 2)
  else if n = 0xA9 then some (.fixed 1)
  else if n = 0xAA then some .tableSwitch
  else if n = 0xAB then some .lookupSwitch
  else if n ≤ 0xB1 then some (.fixed 0)
  else if n ≤ 0xB8 then some (.fixed 2)
  else if n ≤ 0xBA then some (.fixed 4)
  else if n = 0xBB then some (.fixed 2)
  else if n = 0xBC then some (.fixed 1)
  else if n = 0xBD then some (.fixed 2)
  else if n ≤ 0xBF then some (.fixed 0)
  else if n ≤ 0xC1 then some (.fixed 2)
  else if n ≤ 0xC3 then some (.fixed 0)
  else if n = 0xC4 then some .wide
  else if n = 0xC5 then some (.fixed 3)
  else if n ≤ 0xC7 then some (.fixed 2)
  else if n ≤ 0xC9 then some (.fixed 4)
  else none

/-- Whether `wide` may modify an opcode other than `iinc`: a load, a store or a return. -/
def isWidened (opcode : UInt8) : Bool :=
  let n := opcode.toNat
  (0x15 ≤ n && n ≤ 0x19) || (0x36 ≤ n && n ≤ 0x3A) || n == 0xA9

end Opcode

end JarText
