import JarText.Text.CodePage437
import JarText.Text.Utf8
import JarText.Zip.Entry
import JarText.Zip.Fields

/-!
# The directory of a zip file

The last record of a zip file says where its directory is. It is found from the end, since a comment
may follow it. Offsets count from where the zip file begins, which need not be the beginning of the
bytes: what stands before it is the difference between where the last record is and where it should
be. Numbers that do not fit are found in a longer record, to which a locator points.
-/

set_option autoImplicit false

namespace JarText.Zip

/-- The last record, with its comment. -/
structure DirectoryEnd where
  disk : Nat
  directoryDisk : Nat
  countOnDisk : Nat
  count : Nat
  size : Nat
  offset : Nat
  comment : Bytes
  deriving Repr, DecidableEq

namespace DirectoryEnd

def length : Nat := 22

def read : Fields DirectoryEnd := do
  Fields.skip 4
  return { disk := ← Fields.number 2, directoryDisk := ← Fields.number 2
           countOnDisk := ← Fields.number 2, count := ← Fields.number 2
           size := ← Fields.number 4, offset := ← Fields.number 4
           comment := ← Fields.bytes (← Fields.number 2) }

/-- Whether a number did not fit. -/
def isTooSmall (last : DirectoryEnd) : Bool :=
  last.disk == shortMark || last.directoryDisk == shortMark || last.countOnDisk == shortMark
    || last.count == shortMark || last.size == longMark || last.offset == longMark

/-- The last place from `low` to `high` where a signature stands. `position` is that of the bytes
looked at, `best` the last place before it. -/
def lastPlace (signature : Bytes) (low high : Nat) :
    Bytes → (position : Nat) → (best : Option Nat) → Option Nat
  | [], _, best => best
  | byte :: rest, position, best =>
    let best :=
      if low ≤ position && position ≤ high && signature.isPrefixOf (byte :: rest) then
        some position
      else best
    lastPlace signature low high rest (position + 1) best

/-- The first place from `low` to `high` where a signature stands. -/
def firstPlace (signature : Bytes) (low high : Nat) : Bytes → (position : Nat) → Option Nat
  | [], _ => none
  | byte :: rest, position =>
    if low ≤ position && position ≤ high && signature.isPrefixOf (byte :: rest) then
      some position
    else firstPlace signature low high rest (position + 1)

def find (bytes : Bytes) : Except ZipFault (DirectoryEnd × Nat) :=
  if bytes.length < length then .error .tooShort
  else
    let high := bytes.length - length
    match lastPlace endSignature (high - 65535) high bytes 0 none with
    | none => .error .noDirectoryEnd
    | some place => (read (bytes.drop place)).map fun result => (result.1, place)

end DirectoryEnd

/-- Where the directory begins, how many entries it has, and what stands before the zip file. -/
structure DirectoryPlace where
  start : Nat
  count : Nat
  shift : Nat
  deriving Repr, DecidableEq

namespace DirectoryPlace

/-- Points to the longer record. -/
structure Locator where
  disk : Nat
  offset : Nat
  deriving Repr, DecidableEq

def locator? (bytes : Bytes) (last : DirectoryEnd) : Option Locator :=
  let fromEnd := 20 + DirectoryEnd.length + last.comment.length
  if bytes.length < fromEnd then none
  else
    let rest := bytes.drop (bytes.length - fromEnd)
    if locatorSignature.isPrefixOf rest then
      let fields : Fields Locator := do
        Fields.skip 4
        return { disk := ← Fields.number 4, offset := ← Fields.number 8 }
      match fields rest with
      | .ok (locator, _) => some locator
      | .error _ => none
    else none

def ofEnd (last : DirectoryEnd) (place : Nat) : Except ZipFault DirectoryPlace :=
  if place < last.size + last.offset then .error .badDirectoryBounds
  else
    let shift := place - last.size - last.offset
    .ok { start := last.offset + shift, count := last.countOnDisk, shift }

/-- The place that the longer record at `place` gives; it should be at `nominal`. -/
def longRecord (place nominal : Nat) : Fields DirectoryPlace := do
  Fields.skip 16
  let disk ← Fields.number 4
  let directoryDisk ← Fields.number 4
  Fields.skip 8
  let count ← Fields.number 8
  Fields.skip 8
  let offset ← Fields.number 8
  if disk ≠ directoryDisk then throw .multipleDisks
  let shift := place - nominal
  if UInt64.size ≤ offset + shift then throw .badDirectoryBounds
  return { start := offset + shift, count, shift }

/-- The place that the longer record gives, which stands before `place`. -/
def ofLocator (bytes : Bytes) (last : DirectoryEnd) (place : Nat) (locator : Locator) :
    Except ZipFault DirectoryPlace :=
  if !last.isTooSmall && last.disk ≠ locator.disk then .error .multipleDisks
  else if place < 60 then .error .noRoomForLongEnd
  else
    match DirectoryEnd.firstPlace longEndSignature locator.offset (place - 60) bytes 0 with
    | none => .error .noLongEnd
    | some found => (longRecord found locator.offset (bytes.drop found)).map (·.1)

def find (bytes : Bytes) : Except ZipFault DirectoryPlace := do
  let (last, place) ← DirectoryEnd.find bytes
  if !last.isTooSmall && last.disk ≠ last.directoryDisk then throw .multipleDisks
  match locator? bytes last with
  | none => ofEnd last place
  | some locator => ofLocator bytes last place locator

end DirectoryPlace

/-- A record of the directory: the header of an entry, and where the entry is. -/
structure DirectoryRecord extends EntryHeader where
  start : Nat
  deriving Repr, DecidableEq

namespace DirectoryRecord

/-- The mode of a file, if it has attributes on a system whose attributes are known. -/
def modeOf? (system attributes : Nat) : Option UInt16 :=
  if attributes = 0 then none
  else if system = 3 then some (UInt16.ofNat (attributes / 65536))
  else if system = 0 then
    let mode : UInt16 := if attributes / 16 % 2 = 1 then 0o40775 else 0o100664
    some (if attributes % 2 = 1 then mode &&& 0o177555 else mode)
  else none

/-- The number itself, or the next of the long ones if it did not fit. -/
def longNumber? (n : Nat) (rest : Bytes) : Option (Nat × Bytes) :=
  if n = longMark then (Fields.number 8 rest).toOption else some (n, rest)

/-- Puts long numbers in place of those that did not fit, as far as there are any. -/
def takeLongNumbers (record : DirectoryRecord) (field : Bytes) :
    DirectoryRecord × Option Bytes :=
  match longNumber? record.size field with
  | none => (record, none)
  | some (size, rest) =>
    let record := { record with size }
    match longNumber? record.packedSize rest with
    | none => (record, none)
    | some (packedSize, rest) =>
      let record := { record with packedSize }
      match longNumber? record.start rest with
      | none => (record, none)
      | some (start, rest) => ({ record with start }, some rest)

def cipherLength : Nat := 7

/-- The method beneath the encryption, from a field about it. -/
def cipherMethod : Fields (Except ZipFault UInt16) := do
  let version ← Fields.number 2
  let vendor ← Fields.number 2
  let strength ← Fields.number 1
  let method ← Fields.number 2
  if vendor ≠ 0x4541 then return .error .badCipherVendor
  else if version ≠ 1 ∧ version ≠ 2 then return .error .badCipherVersion
  else if strength = 0 ∨ 3 < strength then return .error .badCipherStrength
  else return .ok (UInt16.ofNat method)

/-- Takes in the extra fields of a record; also whether one of them is about encryption. Fields that
are cut off are left aside, and so are as many bytes after a field about encryption as it has.
`fuel` bounds the number of fields. -/
def takeExtra : (fuel : Nat) → Bytes → DirectoryRecord → (ciphered : Bool) →
    Except ZipFault (DirectoryRecord × Bool)
  | 0, _, record, ciphered => .ok (record, ciphered)
  | fuel + 1, k :: kind :: l :: length :: field, record, ciphered =>
    let kind := Bytes.littleEndianValue [k, kind]
    let length := Bytes.littleEndianValue [l, length]
    if kind = 0x0001 then
      match takeLongNumbers record field with
      | (record, none) => .ok (record, ciphered)
      | (record, some rest) =>
        let taken := field.length - rest.length
        takeExtra fuel (field.drop (max taken length)) record ciphered
    else if kind = 0x9901 then
      if length ≠ cipherLength then .error .badCipherLength
      else
        match cipherMethod field with
        | .error _ => .ok (record, ciphered)
        | .ok (.error fault, _) => .error fault
        | .ok (.ok method, rest) =>
          takeExtra fuel (rest.drop cipherLength) { record with method } true
    else takeExtra fuel (field.drop length) record ciphered
  | _, _, record, ciphered => .ok (record, ciphered)

def cipheredMethod : UInt16 := 99

def decodeName (flags : Nat) (bytes : Bytes) : String :=
  if flags / 2048 % 2 = 1 then Text.Utf8.decodeLossy bytes else Text.CodePage437.decode bytes

/-- The fields of a record, before its extra fields are taken in, and the extra fields. -/
def readFields : Fields (DirectoryRecord × Bytes) := do
  let found ← Fields.bytes 4
  if found ≠ directorySignature then throw .badDirectoryHeader
  let madeBy ← Fields.number 2
  Fields.skip 2
  let flags ← Fields.number 2
  let method ← Fields.number 2
  let time ← Fields.number 2
  let date ← Fields.number 2
  let checksum ← Fields.number 4
  let packedSize ← Fields.number 4
  let size ← Fields.number 4
  let nameLength ← Fields.number 2
  let extraLength ← Fields.number 2
  let commentLength ← Fields.number 2
  Fields.skip 4
  let attributes ← Fields.number 4
  let start ← Fields.number 4
  let name ← Fields.bytes nameLength
  let extra ← Fields.bytes extraLength
  Fields.skip commentLength
  return ({ name := decodeName flags name, method := UInt16.ofNat method
            time := UInt16.ofNat time, date := UInt16.ofNat date
            checksum := UInt32.ofNat checksum, packedSize, size
            mode := modeOf? (madeBy / 256) attributes, locked := flags % 2 == 1, start }, extra)

def read (shift : Nat) : Fields DirectoryRecord := do
  let (record, extra) ← readFields
  let (record, ciphered) ← (takeExtra extra.length extra record false : Except ZipFault _)
  if record.method = cipheredMethod ∧ !ciphered then throw .missingCipherField
  if UInt64.size ≤ record.start + shift then throw .offsetOverflow
  return { record with start := record.start + shift }

/-- The number of bytes that stand before an entry's name. -/
def localLength : Nat := 30

/-- Where the data begin in an entry that stands at the front of the bytes. -/
def dataOffset : Fields Nat := do
  let found ← Fields.bytes 4
  if found ≠ entrySignature then throw .badLocalHeader
  Fields.skip 22
  let nameLength ← Fields.number 2
  let extraLength ← Fields.number 2
  return localLength + nameLength + extraLength

def entry (bytes : Array UInt8) (record : DirectoryRecord) : Except ZipFault Entry := do
  let part (start length : Nat) : Bytes := (bytes.extract start (start + length)).toList
  let (offset, _) ← dataOffset (part record.start localLength)
  return { record with data := part (record.start + offset) record.packedSize }

end DirectoryRecord

end JarText.Zip
