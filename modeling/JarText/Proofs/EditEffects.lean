import Mathlib.Data.Finset.Card
import JarText.Proofs.EditRuns

/-!
# What edits do to an archive

When edits succeed, the class of every entry that they name is the one that was there with the last
text given to each index, and nothing else in the class or in the archive is changed.
-/

set_option autoImplicit false

namespace JarText

open Text

/-- A class after edits: every edited slot held a text and holds the last one given to it, and all
else is as it was. -/
structure ClassFile.EditedBy (edits : List Edit) (file file' : ClassFile) : Prop where
  edited : ∀ index text, Edit.lastText? edits index = some text →
    (∃ old, file.pool.slots[index.toNat]? = some (some (.utf8 old))) ∧
      file'.pool.slots[index.toNat]? = some (some (.utf8 (ModifiedUtf8.encode text)))
  kept : ∀ i, (∀ edit ∈ edits, edit.textIndex.toNat ≠ i) →
    file'.pool.slots[i]? = file.pool.slots[i]?
  rest : file' = { file with pool := file'.pool }

namespace Edit

variable {edits : List Edit} {file file' : ClassFile}

theorem editedBy_of_patch (h : patch file edits = .ok file') : file.EditedBy edits file' := by
  obtain ⟨happlies, rfl⟩ := patch_eq_ok_iff.mp h
  refine ⟨?_, ?_, rfl⟩
  · intro index text htext
    refine ⟨?_, Pool.getElem?_withTexts_of_lastText? happlies htext⟩
    have hsome : (lastText? edits index).isSome := by rw [htext]; rfl
    obtain ⟨edit, hmem, rfl⟩ := isSome_lastText?_iff.mp hsome
    obtain ⟨old, hpayload⟩ := (happlies edit hmem).payload
    exact ⟨old, Pool.get_eq_ok_iff.mp (Pool.payload_eq_ok_iff.mp hpayload)⟩
  · intro i hi
    exact Pool.getElem?_withTexts_of_unedited happlies hi

theorem read_write_of_patch {data : Bytes} (hread : ClassFile.read data = .ok file)
    (h : patch file edits = .ok file') : ClassFile.read file'.write = .ok file' := by
  obtain ⟨happlies, rfl⟩ := patch_eq_ok_iff.mp h
  obtain ⟨hfits, _⟩ := ClassFile.read_eq_ok_iff.mp hread
  exact ClassFile.read_eq_ok_iff.mpr
    ⟨{ hfits with pool := hfits.pool.withTexts happlies }, rfl⟩

theorem length_owners (edits : List Edit) :
    (owners edits).length = (edits.map (·.entry)).toFinset.card := by
  rw [← List.toFinset_card_of_nodup (nodup_owners edits)]
  congr 1
  ext owner
  rw [List.mem_toFinset, List.mem_toFinset, owners, List.mem_eraseDups]

/-- Edits that succeed keep the names, the order and the bytes of all entries that they do not name.
Every entry that they name becomes its class after its own edits, in the order given. -/
theorem applyToArchive_effect {archive : MemoryArchive} {summary : EditSummary}
    (h : (applyToArchive archive edits).result = .ok summary) :
    (applyToArchive archive edits).archive.names = archive.names ∧
    (∀ name, (∀ edit ∈ edits, edit.entry ≠ name) →
      (applyToArchive archive edits).archive.get? name = archive.get? name) ∧
    (∀ owner, (∃ edit ∈ edits, edit.entry = owner) → ∃ data file file',
      archive.get? owner = some data ∧ ClassFile.read data = .ok file ∧
        patch file (edits.filter (·.entry == owner)) = .ok file' ∧
        (applyToArchive archive edits).archive.get? owner = some file'.write ∧
        ClassFile.read file'.write = .ok file' ∧
        file.EditedBy (edits.filter (·.entry == owner)) file') ∧
    summary.entries = (edits.map (·.entry)).toFinset.card ∧ summary.edits = edits.length := by
  have hrewritten := rewritten_of_applyToArchive h
  obtain ⟨said, happly⟩ := applyToArchive_ok hrewritten
  rw [happly] at h ⊢
  obtain rfl := Except.ok.inj h
  refine ⟨MemoryArchive.names_mapBytes _, ?_, ?_, length_owners edits, rfl⟩
  · intro name hname
    have hnone : ofOwner edits name = [] := by
      apply ofOwner_eq_nil_of_notMem
      rw [mem_owners_iff]
      rintro ⟨edit, hmem, hentry⟩
      exact hname edit hmem hentry
    rw [MemoryArchive.get?_mapBytes]
    cases archive.get? name with
    | none => rfl
    | some data => exact congrArg some (newBytes_of_ofOwner_eq_nil hnone)
  · intro owner howner
    obtain ⟨data, new, hget, hnew⟩ := hrewritten owner (mem_owners_iff.mpr howner)
    obtain ⟨file, hread, happlies, rfl⟩ := rewritten_eq_ok_iff.mp hnew
    have hpatch := patch_eq_ok_iff.mpr ⟨happlies, rfl⟩
    refine ⟨data, file, _, hget, hread, hpatch, ?_, read_write_of_patch hread hpatch,
      editedBy_of_patch hpatch⟩
    rw [MemoryArchive.get?_mapBytes, hget, Option.map_some, newBytes_of_rewritten hnew]

/-- Two classes with the same bytes and a file between them. -/
def twoClasses : MemoryArchive :=
  ⟨[("A.class", ClassFile.specimenBytes), ("notes.txt", [72, 105]),
    ("B.class", ClassFile.specimenBytes)], by decide⟩

/-- Edits of both classes in turn, two of them for one text. -/
def editsInTurn : List Edit :=
  [⟨"B.class", 6, "x"⟩, ⟨"A.class", 11, ""⟩, ⟨"B.class", 11, "y"⟩, ⟨"B.class", 6, "Grüße"⟩]

theorem applyToArchive_effect_in_turn :
    (applyToArchive twoClasses editsInTurn).result = .ok ⟨2, 4⟩ ∧
      (applyToArchive twoClasses editsInTurn).archive.names =
        ["A.class", "notes.txt", "B.class"] ∧
      (applyToArchive twoClasses editsInTurn).archive.get? "notes.txt" = some [72, 105] ∧
      ∃ file : ClassFile,
        (applyToArchive twoClasses editsInTurn).archive.get? "B.class" = some file.write ∧
        file.pool.slots[6]? = some (some (.utf8 [71, 114, 195, 188, 195, 159, 101])) ∧
        file.pool.slots[11]? = some (some (.utf8 [121])) ∧
        file.pool.slots[5]? = ClassFile.specimen.pool.slots[5]? := by
  have hok : (applyToArchive twoClasses editsInTurn).result = .ok ⟨2, 4⟩ := by decide +kernel
  obtain ⟨hnames, hothers, howners, _⟩ := applyToArchive_effect hok
  obtain ⟨data, file, file', hget, hread, _, hnew, _, heffect⟩ := howners "B.class" (by decide)
  obtain rfl : ClassFile.specimenBytes = data := Option.some.inj hget
  rw [ClassFile.read_specimenBytes] at hread
  cases hread
  have hencode : ModifiedUtf8.encode "Grüße" = [71, 114, 195, 188, 195, 159, 101] := by
    decide +kernel
  have hencode' : ModifiedUtf8.encode "y" = [121] := by decide +kernel
  refine ⟨hok, hnames, hothers "notes.txt" (by decide), file', hnew, ?_, ?_, ?_⟩
  · rw [← hencode]
    exact (heffect.edited 6 "Grüße" (by decide)).2
  · rw [← hencode']
    exact (heffect.edited 11 "y" (by decide)).2
  · exact heffect.kept 5 (by decide)

end Edit

end JarText
