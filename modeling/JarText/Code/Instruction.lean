import JarText.Bytes
import JarText.Fault
import JarText.Code.Opcode

/-!
# Instructions

A code buffer is a row of instructions without gaps. The length of an instruction depends on its
opcode, on the offset modulo four, and for a switch on the numbers among its operands, which are
words of the machine: `Instruction.operandLength?` computes with them at their width.
-/

set_option autoImplicit false

namespace JarText

structure Instruction where
  offset : Nat
  opcode : UInt8
  /-- The bytes after the opcode, padding included. -/
  operands : Bytes
  deriving Repr, DecidableEq

namespace Instruction

def size (instruction : Instruction) : Nat := 1 + instruction.operands.length

def encode (instruction : Instruction) : Bytes := instruction.opcode :: instruction.operands

def uint16? (instruction : Instruction) : Option UInt16 :=
  match instruction.operands with
  | high :: low :: _ => some (UInt16.ofNat (Bytes.value [high, low]))
  | _ => none

/-- The index of the constant that the instruction loads. -/
def loadIndex? (instruction : Instruction) : Option UInt16 :=
  if instruction.opcode = Opcode.ldc then instruction.operands.head?.map (·.toUInt16)
  else if instruction.opcode = Opcode.ldcW then instruction.uint16?
  else none

def int32? (bytes : Bytes) (position : Nat) : Option Int32 :=
  let word := (bytes.drop position).take 4
  if word.length = 4 then some (Int32.ofNat (Bytes.value word)) else none

/-- The bytes between an opcode at `offset` and the next multiple of four. -/
def padding (offset : Nat) : Nat := (4 - (offset + 1) % 4) % 4

/-- The entries of a table from `low` to `high`, as the machine counts them. -/
def tableEntries (high low : Int32) : UInt64 :=
  (high.toInt64 - low.toInt64 + 1).toUInt64

/-- The number of operand bytes of the opcode at `offset`, whose operands are the front of `tail`
if there are enough of them. `total` is the length of the whole buffer. -/
def operandLength? (total offset : Nat) (opcode : UInt8) (tail : Bytes) :
    Except Fault UInt64 :=
  let short (needed : Nat) : Fault := .malformed offset (.shortCode opcode needed total)
  match Opcode.layout? opcode with
  | none => .error (.unknownOpcode opcode offset)
  | some (.fixed length) => .ok (UInt64.ofNat length)
  | some .wide =>
    match tail with
    | [] => .error (short (offset + 2))
    | target :: _ =>
      if target = Opcode.iinc then .ok 5
      else if Opcode.isWidened target then .ok 3
      else .error (.malformed offset (.wideTarget target))
  | some .tableSwitch =>
    let pad := padding offset
    match int32? tail (pad + 4) with
    | none => .error (short (offset + 1 + pad + 8))
    | some low =>
      match int32? tail (pad + 8) with
      | none => .error (short (offset + 1 + pad + 12))
      | some high =>
        if high < low then .error (.malformed offset (.switchBounds high low))
        else .ok (UInt64.ofNat pad + (12 + tableEntries high low * 4))
  | some .lookupSwitch =>
    let pad := padding offset
    match int32? tail (pad + 4) with
    | none => .error (short (offset + 1 + pad + 8))
    | some pairs =>
      if pairs < 0 then .error (.malformed offset (.negativePairs pairs))
      else .ok (UInt64.ofNat pad + (8 + pairs.toInt64.toUInt64 * 8))

/-- The first instruction of `bytes`, which stand at `offset` of a buffer of `total` bytes, and the
bytes after it. -/
def next? (total offset : Nat) : (opcode : UInt8) → (tail : Bytes) →
    Except Fault (Instruction × Bytes)
  | opcode, tail =>
    match operandLength? total offset opcode tail with
    | .error fault => .error fault
    | .ok length =>
      let stop := UInt64.ofNat offset + 1 + length
      if UInt64.ofNat total < stop then
        .error (.malformed offset (.shortCode opcode stop.toNat total))
      else .ok (⟨offset, opcode, tail.take length.toNat⟩, tail.drop length.toNat)

def decodeFrom (total : Nat) : (fuel offset : Nat) → (done : List Instruction) → Bytes →
    Except Fault (List Instruction)
  | _, _, done, [] => .ok done.reverse
  | 0, _, done, _ :: _ => .ok done.reverse
  | fuel + 1, offset, done, opcode :: tail =>
    match next? total offset opcode tail with
    | .error fault => .error fault
    | .ok (instruction, rest) =>
      decodeFrom total fuel (offset + instruction.size) (instruction :: done) rest

def decode (code : Bytes) : Except Fault (List Instruction) :=
  decodeFrom code.length code.length 0 [] code

end Instruction

end JarText
