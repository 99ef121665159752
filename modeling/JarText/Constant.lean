import JarText.Reader

/-!
# Constants

The entries of a constant pool. A constant is a tag byte and the bytes of its kind; references to
other entries are indices. Numbers are kept as their bits, so that every pattern survives.
-/

set_option autoImplicit false

namespace JarText

inductive Constant where
  /-- Text, in modified UTF-8. -/
  | utf8 (payload : Bytes)
  | integer (bits : UInt32)
  | float (bits : UInt32)
  | long (bits : UInt64)
  | double (bits : UInt64)
  | classInfo (name : UInt16)
  | string (text : UInt16)
  | fieldRef (owner nameAndType : UInt16)
  | methodRef (owner nameAndType : UInt16)
  | interfaceMethodRef (owner nameAndType : UInt16)
  | nameAndType (name descriptor : UInt16)
  | methodHandle (kind : UInt8) (reference : UInt16)
  | methodType (descriptor : UInt16)
  | dynamic (bootstrap nameAndType : UInt16)
  | invokeDynamic (bootstrap nameAndType : UInt16)
  | moduleInfo (name : UInt16)
  | packageInfo (name : UInt16)
  deriving Repr, DecidableEq

namespace Constant

def tag : Constant → UInt8
  | utf8 _ => 1
  | integer _ => 3
  | float _ => 4
  | long _ => 5
  | double _ => 6
  | classInfo _ => 7
  | string _ => 8
  | fieldRef _ _ => 9
  | methodRef _ _ => 10
  | interfaceMethodRef _ _ => 11
  | nameAndType _ _ => 12
  | methodHandle _ _ => 15
  | methodType _ => 16
  | dynamic _ _ => 17
  | invokeDynamic _ _ => 18
  | moduleInfo _ => 19
  | packageInfo _ => 20

/-- Whether the constant takes two slots of the pool. -/
def isWide : Constant → Bool
  | long _ | double _ => true
  | _ => false

/-- The bytes that follow the tag. -/
def body : Constant → Bytes
  | utf8 payload => Bytes.bigEndian 2 payload.length ++ payload
  | integer bits | float bits => Bytes.ofUInt32 bits
  | long bits | double bits => Bytes.ofUInt64 bits
  | classInfo i | string i | methodType i | moduleInfo i | packageInfo i => Bytes.ofUInt16 i
  | fieldRef i j | methodRef i j | interfaceMethodRef i j | nameAndType i j | dynamic i j
  | invokeDynamic i j => Bytes.ofUInt16 i ++ Bytes.ofUInt16 j
  | methodHandle kind i => kind :: Bytes.ofUInt16 i

def write (constant : Constant) : Bytes := constant.tag :: constant.body

def readPair (part : String) (make : UInt16 → UInt16 → Constant) : Reader Constant := do
  let first ← Reader.uint16 part
  let second ← Reader.uint16 part
  return make first second

def readBody (offset : Nat) (tag : UInt8) : Reader Constant :=
  match tag.toNat with
  | 1 => do
    let length ← Reader.uint16 "Utf8 length"
    let payload ← Reader.take length.toNat "Utf8 bytes"
    return utf8 payload
  | 3 => integer <$> Reader.uint32 "Integer"
  | 4 => float <$> Reader.uint32 "Float"
  | 5 => long <$> Reader.uint64 "Long"
  | 6 => double <$> Reader.uint64 "Double"
  | 7 => classInfo <$> Reader.uint16 "Class"
  | 8 => string <$> Reader.uint16 "String"
  | 9 => readPair "Fieldref" fieldRef
  | 10 => readPair "Methodref" methodRef
  | 11 => readPair "InterfaceMethodref" interfaceMethodRef
  | 12 => readPair "NameAndType" nameAndType
  | 15 => do
    let kind ← Reader.uint8 "MethodHandle"
    let reference ← Reader.uint16 "MethodHandle"
    return methodHandle kind reference
  | 16 => methodType <$> Reader.uint16 "MethodType"
  | 17 => readPair "Dynamic" dynamic
  | 18 => readPair "InvokeDynamic" invokeDynamic
  | 19 => moduleInfo <$> Reader.uint16 "Module"
  | 20 => packageInfo <$> Reader.uint16 "Package"
  | _ => fun _ => .error (.malformed offset (.unknownTag tag))

def read : Reader Constant := fun cursor =>
  match Reader.uint8 "constant tag" cursor with
  | .error fault => .error fault
  | .ok (tag, next) => readBody cursor.offset tag next

end Constant

end JarText
