import JarText.Archive
import JarText.Zip.Container

/-!
# Jars

A jar is a zip file and the contents that were put in place of some of its entries. Saving it
copies every other entry with its data as they are. Where a name is repeated, reading goes to the
last entry of that name, and new content goes to each of them.
-/

set_option autoImplicit false

namespace JarText

structure Jar where
  entries : Array Zip.Entry
  /-- The names with new contents, each once. -/
  replaced : List (String × Bytes)
  deriving Repr, DecidableEq

namespace Jar

/-- Opens the jar that some bytes hold. -/
def ofBytes (bytes : Bytes) : Except Fault Jar :=
  match Zip.read bytes with
  | .ok entries => .ok ⟨entries.toArray, []⟩
  | .error fault => .error (.container fault)

def names (jar : Jar) : List String := jar.entries.toList.map (·.name)

def contains (jar : Jar) (name : String) : Bool := jar.entries.any (·.name == name)

def find? (jar : Jar) (name : String) : Option Zip.Entry :=
  jar.entries.findRev? (·.name == name)

def read (jar : Jar) (name : String) : Except Fault Bytes :=
  match jar.replaced.lookup name with
  | some data => .ok data
  | none =>
    match jar.find? name with
    | none => .error (.entryMissing name)
    | some entry =>
      match entry.content with
      | .ok content => .ok content
      | .error fault => .error (.container fault)

def replace (jar : Jar) (name : String) (data : Bytes) : Except Fault Jar :=
  if jar.contains name then
    .ok { jar with replaced := (name, data) :: jar.replaced.filter (·.1 ≠ name) }
  else .error (.entryMissing name)

instance : Archive Jar where
  names := names
  read := read
  replace := replace
  contains := contains

def isModified (jar : Jar) : Bool := !jar.replaced.isEmpty

def summary (jar : Jar) : String :=
  s!"JarArchive \x7b entries: {jar.entries.size}, replaced: {jar.replaced.length} \x7d"

/-- An entry as it is saved, where `fresh` has the entries with new content by their names. -/
def savedEntry (fresh : List (String × Zip.Entry)) (entry : Zip.Entry) : Zip.Entry :=
  (fresh.lookup entry.name).getD entry.copied

/-- The bytes of the jar with its new contents. -/
def toBytes (jar : Jar) : Bytes :=
  let fresh := jar.replaced.map fun item => (item.1, Zip.Entry.ofContent item.1 item.2)
  Zip.write (jar.entries.toList.map (savedEntry fresh))

/-- The entry that a new jar has for a name and content: a folder if the name says so. -/
def newEntry (name : String) (content : Bytes) : Zip.Entry :=
  if name.toList.getLast? = some '/' then .folder name else .ofContent name content

def build (entries : List (String × Bytes)) : Bytes :=
  Zip.write (entries.map fun entry => newEntry entry.1 entry.2)

end Jar

end JarText
