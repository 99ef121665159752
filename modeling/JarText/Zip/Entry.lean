import JarText.Zip.Checksum
import JarText.Zip.Deflate

/-!
# Entries of a zip file

An entry is what the directory says of it and its data as they stand in the file. Its content is
read from these only when it is asked for, so an entry with broken data can still be listed and
copied.
-/

set_option autoImplicit false

namespace JarText.Zip

structure EntryHeader where
  name : String
  method : UInt16
  time : UInt16
  date : UInt16
  checksum : UInt32
  /-- The number of bytes of the data. -/
  packedSize : Nat
  /-- The number of bytes of the content. -/
  size : Nat
  /-- The kind and the permissions of the file, if they are stated. -/
  mode : Option UInt16
  /-- Whether the data are encrypted. -/
  locked : Bool
  deriving Repr, DecidableEq

structure Entry extends EntryHeader where
  data : Bytes
  deriving Repr, DecidableEq

def storedMethod : UInt16 := 0

def deflatedMethod : UInt16 := 8

/-- The date of an entry that has none of its own: the first day of 1980. -/
def firstDate : UInt16 := 0x21

def plainFileMode : UInt16 := 0o100644

def folderMode : UInt16 := 0o40755

def permissionMask : UInt16 := 0o777

namespace Entry

def methodName (method : UInt16) : String :=
  if method = storedMethod then "Stored"
  else if method = deflatedMethod then "Deflated"
  else s!"Unsupported({method.toNat})"

/-- The content that some data stand for. -/
def unpack (method : UInt16) (data : Bytes) : Except ZipFault Bytes :=
  if method = storedMethod then .ok data
  else if method = deflatedMethod then inflate data
  else .error .unknownMethod

/-- The content of an entry, if it is the one whose checksum is stated. -/
def content (entry : Entry) : Except ZipFault Bytes :=
  if entry.locked then .error .passwordRequired
  else
    match unpack entry.method entry.data with
    | .error fault => .error fault
    | .ok content => if checksum content = entry.checksum then .ok content else .error .badChecksum

def ofContent (name : String) (content : Bytes) : Entry :=
  let data := deflate content
  { name, method := deflatedMethod, time := 0, date := firstDate, checksum := checksum content
    packedSize := data.length, size := content.length, mode := some plainFileMode, locked := false
    data }

def folder (name : String) : Entry :=
  { name, method := storedMethod, time := 0, date := firstDate, checksum := 0, packedSize := 0
    size := 0, mode := some folderMode, locked := false, data := [] }

/-- The mode of a file after it is copied. Of a mode that is stated only the permissions are kept, and
none is stated if they are all zero. -/
def copiedMode : Option UInt16 → Option UInt16
  | none => some plainFileMode
  | some mode => if mode &&& permissionMask = 0 then none else some (mode &&& permissionMask)

/-- The entry as it is copied into another file: data, sizes and checksum are kept. -/
def copied (entry : Entry) : Entry :=
  { entry with mode := copiedMode entry.mode, locked := false }

@[simp] theorem copied_name (entry : Entry) : entry.copied.name = entry.name := rfl

@[simp] theorem copied_method (entry : Entry) : entry.copied.method = entry.method := rfl

@[simp] theorem copied_checksum (entry : Entry) : entry.copied.checksum = entry.checksum := rfl

@[simp] theorem copied_data (entry : Entry) : entry.copied.data = entry.data := rfl

end Entry

end JarText.Zip
