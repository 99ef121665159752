import JarText.Zip.Directory

/-!
# Zip files

A zip file is a list of entries in the order of its directory, repeated names included. `read`
takes a file apart and `write` puts one together: first each entry with its data, then the
directory, then the last record.
-/

set_option autoImplicit false

namespace JarText.Zip

def read (bytes : Bytes) : Except ZipFault (List Entry) := do
  let place ← DirectoryPlace.find bytes
  let (records, _) ←
    Fields.manyFrom (DirectoryRecord.read place.shift) place.count [] (bytes.drop place.start)
  records.mapM (DirectoryRecord.entry bytes.toArray)

/-! ## Writing -/

/-- A row of numbers, each with its width. -/
def fields (numbers : List (Nat × Nat)) : Bytes :=
  numbers.flatMap fun number => Bytes.littleEndian number.1 number.2

def neededVersion (long : Bool) : Nat := if long then 45 else 20

def formatVersion : Nat := 46

/-- What makes the files: the version, on a system whose files have modes. -/
def madeBy : Nat := 3 * 256 + formatVersion

namespace Entry

def nameBytes (entry : Entry) : Bytes := Text.Utf8.encode entry.name

def isLong (entry : Entry) : Bool := longMark < entry.packedSize || longMark < entry.size

/-- Says whether the data are encrypted and whether the name goes beyond ASCII. -/
def flags (entry : Entry) : Nat :=
  entry.locked.toNat + if entry.name.toList.all (·.toNat < 128) then 0 else 2048

/-- The fields that stand both before the data and in the directory. -/
def commonFields (entry : Entry) (long : Bool) (packedSize size extraLength : Nat) : Bytes :=
  fields [(2, neededVersion long), (2, entry.flags), (2, entry.method.toNat),
    (2, entry.time.toNat), (2, entry.date.toNat), (4, entry.checksum.toNat), (4, packedSize),
    (4, size), (2, entry.nameBytes.length), (2, extraLength)]

/-- The long sizes of an entry, before its data. -/
def longSizes (entry : Entry) : Bytes :=
  if entry.isLong then fields [(2, 1), (2, 16), (8, entry.size), (8, entry.packedSize)] else []

/-- The entry with its data. -/
def localRecord (entry : Entry) : Bytes :=
  let packedSize := if entry.isLong then longMark else entry.packedSize
  let size := if entry.isLong then longMark else entry.size
  entrySignature ++ entry.commonFields entry.isLong packedSize size entry.longSizes.length
    ++ entry.nameBytes ++ entry.longSizes ++ entry.data

/-- The numbers that do not fit the directory's record of an entry. -/
def longNumbers (entry : Entry) (start : Nat) : Bytes :=
  let numbers := [entry.size, entry.packedSize, start].filter (longMark < ·)
  if numbers.isEmpty then []
  else fields ([(2, 1), (2, 8 * numbers.length)] ++ numbers.map ((8, ·)))

/-- The attributes that state the mode of an entry, zero if it has none. -/
def attributes (entry : Entry) : Nat :=
  match entry.mode with
  | some mode => mode.toNat * 65536
  | none => 0

def directoryRecord (entry : Entry) (start : Nat) : Bytes :=
  let extra := entry.longNumbers start
  directorySignature ++ fields [(2, madeBy)]
    ++ entry.commonFields (!extra.isEmpty) (min entry.packedSize longMark)
        (min entry.size longMark) extra.length
    ++ fields [(2, 0), (2, 0), (2, 0), (4, entry.attributes), (4, min start longMark)]
    ++ entry.nameBytes ++ extra

end Entry

def directory : List Entry → (start : Nat) → Bytes
  | [], _ => []
  | entry :: rest, start =>
    entry.directoryRecord start ++ directory rest (start + entry.localRecord.length)

/-- The longer last record and its locator, if a number does not fit the last record. -/
def longEnd (count size start : Nat) : Bytes :=
  if shortMark < count || longMark < max size start then
    longEndSignature ++ fields [(8, 44), (2, formatVersion), (2, formatVersion), (4, 0), (4, 0),
        (8, count), (8, count), (8, size), (8, start)]
      ++ locatorSignature ++ fields [(4, 0), (8, start + size), (4, 1)]
  else []

/-- The last record, for a directory of `size` bytes at `start`. -/
def lastRecord (count size start : Nat) : Bytes :=
  endSignature ++ fields [(2, 0), (2, 0), (2, min count shortMark), (2, min count shortMark),
    (4, min size longMark), (4, min start longMark), (2, 0)]

def write (entries : List Entry) : Bytes :=
  let records := entries.flatMap Entry.localRecord
  let listing := directory entries 0
  records ++ listing ++ longEnd entries.length listing.length records.length
    ++ lastRecord entries.length listing.length records.length

end JarText.Zip
