import JarText.Archive
import JarText.Scan.ClassScan

/-!
# Edits

An edit puts a text in place of one in a class. Edits are applied class by class, in the order in
which their classes are first named; within a class in the order given. A class whose edits cannot
all be applied keeps its bytes, and the classes before it have theirs already.
-/

set_option autoImplicit false

namespace JarText

structure Edit where
  /-- The archive entry of the class. -/
  entry : String
  textIndex : UInt16
  value : String
  deriving Repr, DecidableEq

namespace FoundString

def edit (found : FoundString) (value : String) : Edit :=
  ⟨found.entry, found.textIndex, value⟩

end FoundString

structure EditSummary where
  /-- The classes written back. -/
  entries : Nat := 0
  /-- The edits applied. -/
  edits : Nat := 0
  deriving Repr, DecidableEq

/-- The archive after some edits, whether they succeeded, and what was said on the way. -/
structure EditOutcome (α : Type) where
  archive : α
  result : Except Fault EditSummary
  warnings : List String

namespace Constant

/-- Whether the constant uses a text other than as a string. -/
def names (index : UInt16) : Constant → Bool
  | classInfo name | moduleInfo name | packageInfo name => name == index
  | nameAndType name descriptor => name == index || descriptor == index
  | methodType descriptor => descriptor == index
  | _ => false

end Constant

namespace Member

/-- Whether a field or method uses a text as its name, its descriptor or an attribute's name. -/
def names (index : UInt16) (member : Member) : Bool :=
  member.name == index || member.descriptor == index
    || member.attributes.any (·.name == index)

end Member

namespace ClassFile

/-- Whether a class uses a text other than as a string. -/
def names (index : UInt16) (file : ClassFile) : Bool :=
  file.pool.slots.any (fun slot => slot.any (Constant.names index))
    || file.fields.any (Member.names index) || file.methods.any (Member.names index)
    || file.attributes.any (·.name == index)

end ClassFile

namespace Edit

def apply (file : ClassFile) (edit : Edit) : Except Fault ClassFile := do
  let pool ← file.pool.setText edit.textIndex edit.value
  return { file with pool }

def renameWarning (edit : Edit) : String :=
  edit.entry ++ " #" ++ toString edit.textIndex.toNat
    ++ " is also used as a name or descriptor; renaming it too"

def warnings (file : ClassFile) (edit : Edit) : List String :=
  if file.names edit.textIndex then [edit.renameWarning] else []

/-- Applies edits to a class in order, up to the first that fails. `said` has the latest first. -/
def applyAll : ClassFile → List Edit → (said : List String) →
    Except Fault ClassFile × List String
  | file, [], said => (.ok file, said)
  | file, edit :: rest, said =>
    let said := edit.warnings file ++ said
    match edit.apply file with
    | .error fault => (.error fault, said)
    | .ok file => applyAll file rest said

/-- The entries that the edits name, each once, in the order of their first edits. -/
def owners (edits : List Edit) : List String :=
  (edits.map (·.entry)).eraseDups

def ofOwner (edits : List Edit) (owner : String) : List Edit :=
  edits.filter (·.entry == owner)

variable {α : Type} [Archive α]

def applyToOwner (archive : α) (owner : String) (edits : List Edit) (said : List String) :
    Except Fault α × List String :=
  match Archive.read archive owner with
  | .error fault => (.error fault, said)
  | .ok data =>
    match ClassFile.read data with
    | .error fault => (.error fault, said)
    | .ok file =>
      match applyAll file edits said with
      | (.error fault, said) => (.error fault, said)
      | (.ok file, said) => (Archive.replace archive owner file.write, said)

def applyToOwners (edits : List Edit) :
    List String → α → EditSummary → (said : List String) → EditOutcome α
  | [], archive, summary, said => ⟨archive, .ok summary, said.reverse⟩
  | owner :: rest, archive, summary, said =>
    let group := ofOwner edits owner
    match applyToOwner archive owner group said with
    | (.error fault, said) => ⟨archive, .error fault, said.reverse⟩
    | (.ok archive, said) =>
      applyToOwners edits rest archive
        { entries := summary.entries + 1, edits := summary.edits + group.length } said

/-- Applies edits to an archive. Every entry they name has to be there before any is touched. -/
def applyToArchive (archive : α) (edits : List Edit) : EditOutcome α :=
  let owners := owners edits
  match owners.find? fun owner => !Archive.contains archive owner with
  | some missing => ⟨archive, .error (.entryMissing missing), []⟩
  | none => applyToOwners edits owners archive {} []

end Edit

end JarText
