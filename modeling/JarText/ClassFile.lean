import JarText.Pool

/-!
# Class files

A class is its pool, its flags and names, and its fields, methods and attributes. Attributes stay
as they are written, so `ClassFile.write` gives back the bytes that `ClassFile.read` accepts.
-/

set_option autoImplicit false

namespace JarText

structure Attribute where
  name : UInt16
  info : Bytes
  deriving Repr, DecidableEq

/-- A field or a method. -/
structure Member where
  access : UInt16
  name : UInt16
  descriptor : UInt16
  attributes : List Attribute
  deriving Repr, DecidableEq

structure ClassFile where
  minor : UInt16
  major : UInt16
  pool : Pool
  access : UInt16
  thisClass : UInt16
  superClass : UInt16
  interfaces : List UInt16
  fields : List Member
  methods : List Member
  attributes : List Attribute
  deriving Repr, DecidableEq

namespace Attribute

def read : Reader Attribute := do
  let name ← Reader.uint16 "attribute_name_index"
  let length ← Reader.uint32 "attribute_length"
  let info ← Reader.take length.toNat "attribute info"
  return { name, info }

def readAll : Reader (List Attribute) := Reader.counted "attributes_count" read

def write (attr : Attribute) : Bytes :=
  Bytes.ofUInt16 attr.name ++ Bytes.bigEndian 4 attr.info.length ++ attr.info

def writeAll (attributes : List Attribute) : Bytes :=
  Bytes.bigEndian 2 attributes.length ++ attributes.flatMap write

def isNamed (attr : Attribute) (pool : Pool) (name : Bytes) : Bool :=
  match pool.payload attr.name with
  | .ok payload => payload == name
  | .error _ => false

def find? (attributes : List Attribute) (pool : Pool) (name : String) : Option Attribute :=
  let name := Text.Utf8.encode name
  attributes.find? (·.isNamed pool name)

end Attribute

namespace Member

def read : Reader Member := do
  let access ← Reader.uint16 "member access_flags"
  let name ← Reader.uint16 "member name_index"
  let descriptor ← Reader.uint16 "member descriptor_index"
  let attributes ← Attribute.readAll
  return { access, name, descriptor, attributes }

def write (member : Member) : Bytes :=
  Bytes.ofUInt16 member.access ++ Bytes.ofUInt16 member.name ++ Bytes.ofUInt16 member.descriptor
    ++ Attribute.writeAll member.attributes

def writeAll (members : List Member) : Bytes :=
  Bytes.bigEndian 2 members.length ++ members.flatMap write

def isAbstract (member : Member) : Bool := member.access &&& 0x0400 != 0

end Member

namespace ClassFile

def magic : UInt32 := 0xCAFEBABE

/-- Reads a class and leaves what follows it. -/
def readFront : Reader ClassFile := do
  let found ← Reader.uint32 "magic"
  if found ≠ magic then
    throw (.malformed 0 (.badMagic found))
  let minor ← Reader.uint16 "minor_version"
  let major ← Reader.uint16 "major_version"
  let pool ← Pool.read
  let access ← Reader.uint16 "access_flags"
  let thisClass ← Reader.uint16 "this_class"
  let superClass ← Reader.uint16 "super_class"
  let interfaces ← Reader.counted "interfaces_count" (Reader.uint16 "interface index")
  let fields ← Reader.counted "fields_count" Member.read
  let methods ← Reader.counted "methods_count" Member.read
  let attributes ← Attribute.readAll
  return { minor, major, pool, access, thisClass, superClass, interfaces, fields, methods,
           attributes }

/-- Reads a class that takes all of the bytes. -/
def read (bytes : Bytes) : Except Fault ClassFile :=
  match readFront (Cursor.start bytes) with
  | .error fault => .error fault
  | .ok (file, ⟨_, []⟩) => .ok file
  | .ok (_, ⟨offset, rest⟩) => .error (.malformed offset (.trailingBytes rest.length))

def write (file : ClassFile) : Bytes :=
  Bytes.ofUInt32 magic ++ Bytes.ofUInt16 file.minor ++ Bytes.ofUInt16 file.major
    ++ file.pool.write ++ Bytes.ofUInt16 file.access ++ Bytes.ofUInt16 file.thisClass
    ++ Bytes.ofUInt16 file.superClass
    ++ (Bytes.bigEndian 2 file.interfaces.length ++ file.interfaces.flatMap Bytes.ofUInt16)
    ++ Member.writeAll file.fields ++ Member.writeAll file.methods
    ++ Attribute.writeAll file.attributes

def className (file : ClassFile) : Except Fault String :=
  file.pool.className file.thisClass

def isEnum (file : ClassFile) : Bool := file.access &&& 0x4000 != 0

end ClassFile

end JarText
