import JarText.Constant
import JarText.Text.ModifiedUtf8

/-!
# The constant pool

Slots numbered from zero. Slot 0 holds nothing, and neither does the slot after a wide constant.
Every look-up follows indices and says of the first one that leads nowhere what it should name.
-/

set_option autoImplicit false

namespace JarText

abbrev Slot := Option Constant

structure Pool where
  slots : Array Slot
  deriving Repr, DecidableEq

/-- A field or method of a class, by name. -/
structure MemberRef where
  owner : String
  name : String
  descriptor : String
  deriving Repr, DecidableEq

namespace MemberRef

def signature (ref : MemberRef) : String :=
  ref.owner ++ "#" ++ ref.name ++ ref.descriptor

end MemberRef

namespace Pool

/-- The most bytes that the text of a constant may take. -/
def maxTextLength : Nat := 65535

/-- A pool with slot 0 only. -/
def empty : Pool := ⟨#[none]⟩

/-- The number of slots, as a class file states it. -/
def count (pool : Pool) : UInt16 := UInt16.ofNat pool.slots.size

def slotsOf (constant : Constant) : List Slot :=
  if constant.isWide then [some constant, none] else [some constant]

def push (pool : Pool) (constant : Constant) : Pool :=
  if constant.isWide then ⟨(pool.slots.push (some constant)).push none⟩
  else ⟨pool.slots.push (some constant)⟩

/-- Adds a slot that no index may name. -/
def pushGap (pool : Pool) : Pool := ⟨pool.slots.push none⟩

def nextIndex (pool : Pool) : UInt16 := UInt16.ofNat pool.slots.size

/-- The usable slots in order, with their indices. -/
def entries (pool : Pool) : List (UInt16 × Constant) :=
  pool.slots.toList.zipIdx.filterMap fun
    | (some constant, i) => some (UInt16.ofNat i, constant)
    | (none, _) => none

/-! ## Bytes -/

def writeSlot : Slot → Bytes
  | some constant => constant.write
  | none => []

def write (pool : Pool) : Bytes :=
  Bytes.ofUInt16 pool.count ++ (pool.slots.toList.drop 1).flatMap writeSlot

def readSlots : (missing : Nat) → Array Slot → Reader (Array Slot)
  | 0, slots => fun cursor => .ok (slots, cursor)
  | missing + 1, slots => fun cursor =>
    match Constant.read cursor with
    | .error fault => .error fault
    | .ok (constant, next) =>
      if constant.isWide then
        match missing with
        | 0 => .error (.malformed next.offset .wideOverrun)
        | missing + 1 => readSlots missing ((slots.push (some constant)).push none) next
      else readSlots missing (slots.push (some constant)) next

def read : Reader Pool := do
  let count ← Reader.uint16 "constant_pool_count"
  if count = 0 then Reader.fail .wideOverrun
  else
    let slots ← readSlots (count.toNat - 1) empty.slots
    return ⟨slots⟩

/-! ## Look-up -/

def get (pool : Pool) (index : UInt16) : Except Fault Constant :=
  match pool.slots[index.toNat]? with
  | some (some constant) => .ok constant
  | _ => .error (.badReference index .usable)

def payload (pool : Pool) (index : UInt16) : Except Fault Bytes := do
  match ← pool.get index with
  | .utf8 payload => return payload
  | _ => throw (.badReference index .utf8)

def text (pool : Pool) (index : UInt16) : Except Fault String :=
  Text.ModifiedUtf8.decode <$> pool.payload index

def textIndex (pool : Pool) (index : UInt16) : Except Fault UInt16 := do
  match ← pool.get index with
  | .string target =>
    discard (pool.payload target)
    return target
  | _ => throw (.badReference index .string)

def className (pool : Pool) (index : UInt16) : Except Fault String := do
  match ← pool.get index with
  | .classInfo name => pool.text name
  | _ => throw (.badReference index .classInfo)

def nameAndType (pool : Pool) (index : UInt16) : Except Fault (String × String) := do
  match ← pool.get index with
  | .nameAndType name descriptor =>
    let name ← pool.text name
    let descriptor ← pool.text descriptor
    return (name, descriptor)
  | _ => throw (.badReference index .nameAndType)

def memberRef (pool : Pool) (index : UInt16) : Except Fault MemberRef := do
  match ← pool.get index with
  | .fieldRef owner member | .methodRef owner member | .interfaceMethodRef owner member =>
    let owner ← pool.className owner
    let (name, descriptor) ← pool.nameAndType member
    return { owner, name, descriptor }
  | _ => throw (.badReference index .memberRef)

/-- Puts a text in place of another. The pool is kept when the slot holds no text or the new text
is too long. -/
def setText (pool : Pool) (index : UInt16) (value : String) : Except Fault Pool :=
  let payload := Text.ModifiedUtf8.encode value
  if maxTextLength < payload.length then .error (.textTooLong payload.length)
  else
    match pool.slots[index.toNat]? with
    | some (some (.utf8 _)) => .ok ⟨pool.slots.setIfInBounds index.toNat (some (.utf8 payload))⟩
    | _ => .error (.badReference index .utf8)

end Pool

end JarText
