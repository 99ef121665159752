import JarText.Proofs.ClassEdits
import JarText.Proofs.Lists

/-!
# The edits of an archive in memory

When the edits of every entry that is named can be applied, each entry ends with the bytes that its
own edits give it. An entry without edits has no special place: what is read is written back.
-/

set_option autoImplicit false

namespace JarText

namespace MemoryArchive

variable {archive : MemoryArchive} {name other : String} {data new : Bytes}

theorem ext_entries {archive archive' : MemoryArchive} (h : archive.entries = archive'.entries) :
    archive = archive' := by
  cases archive
  cases archive'
  cases h
  rfl

@[simp] theorem archive_read : Archive.read archive name = archive.read name :=
  rfl

@[simp] theorem archive_replace : Archive.replace archive name data = archive.replace name data :=
  rfl

@[simp] theorem archive_contains : Archive.contains archive name = (archive.get? name).isSome :=
  rfl

theorem read_eq_ok_iff : archive.read name = .ok data ↔ archive.get? name = some data := by
  unfold read
  cases archive.get? name <;> simp

theorem get?_eq_some_iff : archive.get? name = some data ↔ (name, data) ∈ archive.entries :=
  lookup_eq_some_iff_mem archive.distinct

def mapBytes (f : String → Bytes → Bytes) (archive : MemoryArchive) : MemoryArchive :=
  ⟨archive.entries.map fun entry => (entry.1, f entry.1 entry.2), by
    simpa [List.map_map, Function.comp_def] using archive.distinct⟩

theorem names_mapBytes (f : String → Bytes → Bytes) :
    (archive.mapBytes f).names = archive.names := by
  simp [names, mapBytes, Function.comp_def]

theorem get?_mapBytes (f : String → Bytes → Bytes) :
    (archive.mapBytes f).get? name = (archive.get? name).map (f name) := by
  rw [Option.ext_iff]
  intro bytes
  rw [get?_eq_some_iff, Option.map_eq_some_iff]
  simp only [get?_eq_some_iff, mapBytes, List.mem_map, Prod.mk.injEq, Prod.exists]
  constructor
  · rintro ⟨_, old, hmem, rfl, rfl⟩
    exact ⟨old, hmem, rfl⟩
  · rintro ⟨old, hmem, rfl⟩
    exact ⟨name, old, hmem, rfl, rfl⟩

theorem read_mapBytes (f : String → Bytes → Bytes) :
    (archive.mapBytes f).read name = (archive.read name).map (f name) := by
  unfold read
  rw [get?_mapBytes]
  cases archive.get? name <;> rfl

theorem setBytes_eq_mapBytes : archive.setBytes name data =
    archive.mapBytes fun other old => if other = name then data else old := by
  apply ext_entries
  simp only [setBytes, mapBytes, overwrite]
  apply List.map_congr_left
  intro entry _
  by_cases h : entry.1 = name <;> simp [h]

theorem get?_setBytes_of_ne (h : other ≠ name) :
    (archive.setBytes name data).get? other = archive.get? other := by
  rw [setBytes_eq_mapBytes, get?_mapBytes]
  simp only [if_neg h]
  exact Option.map_id'

theorem mapBytes_congr {f g : String → Bytes → Bytes}
    (h : ∀ name data, archive.get? name = some data → f name data = g name data) :
    archive.mapBytes f = archive.mapBytes g := by
  apply ext_entries
  apply List.map_congr_left
  rintro ⟨name, data⟩ hmem
  rw [h name data (get?_eq_some_iff.mpr hmem)]

theorem mapBytes_mapBytes (f g : String → Bytes → Bytes) :
    (archive.mapBytes f).mapBytes g = archive.mapBytes fun name data => g name (f name data) := by
  apply ext_entries
  simp only [mapBytes, List.map_map, Function.comp_def]

theorem mapBytes_id : (archive.mapBytes fun _ data => data) = archive := by
  apply ext_entries
  simp [mapBytes]

end MemoryArchive

namespace Edit

variable {edits : List Edit} {owner : String} {data new : Bytes} {file : ClassFile} {fault : Fault}

def rewritten (edits : List Edit) (data : Bytes) : Except Fault Bytes := do
  let file ← ClassFile.read data
  let file ← patch file edits
  return file.write

theorem rewritten_eq_ok_iff : rewritten edits data = .ok new ↔
    ∃ file, ClassFile.read data = .ok file ∧ (∀ edit ∈ edits, edit.Applies file.pool) ∧
      new = { file with pool := file.pool.withTexts edits }.write := by
  unfold rewritten
  simp only [except_bind_eq_ok_iff, patch_eq_ok_iff]
  constructor
  · rintro ⟨file, hread, _, ⟨happlies, rfl⟩, hpure⟩
    cases hpure
    exact ⟨file, hread, happlies, rfl⟩
  · rintro ⟨file, hread, happlies, rfl⟩
    exact ⟨file, hread, _, ⟨happlies, rfl⟩, rfl⟩

theorem rewritten_of_read (hread : ClassFile.read data = .ok file) :
    rewritten edits data = (patch file edits).map ClassFile.write := by
  rw [rewritten, hread]
  change patch file edits >>= _ = _
  cases patch file edits <;> rfl

theorem rewritten_of_unread (hread : ClassFile.read data = .error fault) :
    rewritten edits data = .error fault := by
  rw [rewritten, hread]
  rfl

/-- What the edits of an entry make of its bytes, which stay if the edits cannot be applied. -/
def newBytes (edits : List Edit) (owner : String) (data : Bytes) : Bytes :=
  (rewritten (ofOwner edits owner) data).toOption.getD data

theorem newBytes_of_rewritten (h : rewritten (ofOwner edits owner) data = .ok new) :
    newBytes edits owner data = new := by
  rw [newBytes, h]
  rfl

theorem newBytes_of_unread (hread : ClassFile.read data = .error fault) :
    newBytes edits owner data = data := by
  rw [newBytes, rewritten_of_unread hread]
  rfl

theorem newBytes_of_ofOwner_eq_nil (h : ofOwner edits owner = []) :
    newBytes edits owner data = data := by
  rw [newBytes, h]
  cases hnew : rewritten [] data with
  | error fault => rfl
  | ok new =>
    obtain ⟨file, hread, _, rfl⟩ := rewritten_eq_ok_iff.mp hnew
    exact (ClassFile.read_eq_ok_iff.mp hread).2.symm

theorem mem_owners_iff : owner ∈ owners edits ↔ ∃ edit ∈ edits, edit.entry = owner := by
  rw [owners, List.mem_eraseDups, List.mem_map]

theorem nodup_owners (edits : List Edit) : (owners edits).Nodup :=
  nodup_eraseDups _

theorem ofOwner_eq_nil_of_notMem (h : owner ∉ owners edits) : ofOwner edits owner = [] := by
  rw [ofOwner, List.filter_eq_nil_iff]
  intro edit hmem hentry
  exact h (mem_owners_iff.mpr ⟨edit, hmem, beq_iff_eq.mp hentry⟩)

theorem fst_applyToOwner (archive : MemoryArchive) (group : List Edit) (said : List String) :
    (applyToOwner archive owner group said).1 =
      (do
        let data ← archive.read owner
        let new ← rewritten group data
        archive.replace owner new) := by
  unfold applyToOwner
  simp only [MemoryArchive.archive_read, MemoryArchive.archive_replace]
  cases archive.read owner with
  | error fault => rfl
  | ok data =>
    change _ = (rewritten group data >>= fun new => archive.replace owner new)
    unfold rewritten
    cases hread : ClassFile.read data with
    | error fault =>
      simp only [hread]
      rfl
    | ok file =>
      change _ = (patch file group >>= fun file => Except.ok file.write) >>= _
      obtain ⟨result, said', happly⟩ : ∃ result said',
          applyAll file group said = (result, said') := ⟨_, _, rfl⟩
      rw [← fst_applyAll said]
      simp only [hread, happly]
      cases result <;> rfl

end Edit

end JarText
