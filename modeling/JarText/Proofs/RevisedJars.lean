import JarText.Proofs.EditEffects
import JarText.Proofs.JarSessions
import JarText.Proofs.ListedEdits
import JarText.Sheet

/-!
# Jars from revised sheets

The records of a sheet stand for texts in different places of a jar, and nobody may have changed
more of them than their values. Their edits are then refused for the length of a text or not at all,
and the jar that is saved after them has the new texts and no other change. Edits touch no entry
that they do not name, so only the classes that they name have to be followed.
-/

set_option autoImplicit false

namespace JarText

open Text
open Zip (Entry)

/-! ## Edits of a jar -/

namespace Jar

variable {start jar : Jar} {memory : MemoryArchive} {Named : String → Prop} {name : String}
  {edits : List Edit}

structure Follows (start : Jar) (Named : String → Prop) (jar : Jar) (memory : MemoryArchive) :
    Prop where
  entries : jar.entries = start.entries
  named : ∀ name, Named name → name ∈ start.names ∧ name ∈ memory.names
  read : ∀ name, Named name → jar.read name = memory.read name
  replaced : ∀ name data, jar.replaced.lookup name = some data → Named name

theorem Follows.names_eq (h : Follows start Named jar memory) : jar.names = start.names := by
  rw [names, h.entries, names]

theorem Follows.contains (h : Follows start Named jar memory) (hname : Named name) :
    jar.contains name = true ∧ (memory.get? name).isSome = true := by
  obtain ⟨hstart, hmemory⟩ := h.named name hname
  exact ⟨contains_iff.mpr (h.names_eq ▸ hstart), MemoryArchive.isSome_get?_iff.mpr hmemory⟩

theorem simulates_follows (start : Jar) (Named : String → Prop) :
    Simulates Named (Follows start Named) where
  contains_eq := by
    intro jar memory name h hname
    obtain ⟨hjar, hmemory⟩ := h.contains hname
    exact hjar.trans hmemory.symm
  read_eq := by
    intro jar memory name h hname
    exact h.read name hname
  replace := by
    intro jar memory name data h hname
    obtain ⟨hjar, hmemory⟩ := h.contains hname
    obtain ⟨old, hget⟩ := Option.isSome_iff_exists.mp hmemory
    have hmem := MemoryArchive.isSome_get?_iff.mp hmemory
    have hreplace : Archive.replace jar name data = jar.replace name data := rfl
    have hreplace' : Archive.replace memory name data = memory.replace name data := rfl
    rw [hreplace, hreplace', replace, if_pos hjar, MemoryArchive.replace, hget]
    refine .ok ⟨h.entries, ?_, ?_, ?_⟩
    · intro other hother
      rw [MemoryArchive.names_setBytes]
      exact h.named other hother
    · intro other hnamed
      exact read_replaced_eq hmem (h.read other hnamed)
    · intro other content hlookup
      rw [lookup_put] at hlookup
      split_ifs at hlookup with hother
      · exact hother ▸ hname
      · exact h.replaced other content hlookup

theorem mem_names_of_read {content : Bytes} (hfresh : jar.replaced = [])
    (h : jar.read name = .ok content) : name ∈ jar.names := by
  by_contra hname
  rw [read_eq_of_replaced_eq_nil hfresh, find?_eq_none_iff.mpr hname] at h
  cases h

def ownersOf (jar : Jar) (edits : List Edit) : MemoryArchive where
  entries := (Edit.owners edits).map fun owner => (owner, (jar.read owner).toOption.getD [])
  distinct := by
    rw [List.map_map]
    exact (List.map_id _).symm ▸ Edit.nodup_owners edits

/-- An edit names a class that can be read, and in it a text. -/
def Holds (jar : Jar) (edit : Edit) : Prop :=
  ∃ data file bytes, jar.read edit.entry = .ok data ∧ ClassFile.read data = .ok file ∧
    file.pool.payload edit.textIndex = .ok bytes

theorem follows_ownersOf (hfresh : jar.replaced = []) (h : ∀ edit ∈ edits, jar.Holds edit) :
    Follows jar (· ∈ Edit.owners edits) jar (jar.ownersOf edits) := by
  have hreads : ∀ owner ∈ Edit.owners edits, ∃ data, jar.read owner = .ok data := by
    intro owner howner
    obtain ⟨edit, hedit, rfl⟩ := Edit.mem_owners_iff.mp howner
    obtain ⟨data, file, bytes, hdata, _⟩ := h edit hedit
    exact ⟨data, hdata⟩
  refine ⟨rfl, ?_, ?_, ?_⟩
  · intro owner howner
    obtain ⟨data, hdata⟩ := hreads owner howner
    refine ⟨mem_names_of_read hfresh hdata, ?_⟩
    rw [MemoryArchive.names, ownersOf, List.map_map]
    exact (List.map_id _).symm ▸ howner
  · intro owner howner
    obtain ⟨data, hdata⟩ := hreads owner howner
    rw [hdata]
    symm
    rw [MemoryArchive.read_eq_ok_iff, MemoryArchive.get?_eq_some_iff, ownersOf, List.mem_map]
    refine ⟨owner, howner, ?_⟩
    rw [hdata]
    rfl
  · intro name data hlookup
    rw [hfresh] at hlookup
    cases hlookup

theorem hasTarget_of_holds (hfresh : jar.replaced = []) (h : ∀ edit ∈ edits, jar.Holds edit) :
    ∀ edit ∈ edits, Edit.HasTarget (jar.ownersOf edits) edit := by
  intro edit hedit
  obtain ⟨data, file, bytes, hdata, hread, hpayload⟩ := h edit hedit
  have howner := Edit.mem_owners_iff.mpr ⟨edit, hedit, rfl⟩
  have hmemory := ((follows_ownersOf hfresh h).read edit.entry howner).symm.trans hdata
  exact ⟨file, bytes,
    MemoryArchive.class?_eq_some_iff.mpr ⟨data, MemoryArchive.read_eq_ok_iff.mp hmemory, hread⟩,
    hpayload⟩

/-- Edits of texts that are there fail only for their lengths. -/
theorem result_of_holds (hfresh : jar.replaced = []) (h : ∀ edit ∈ edits, jar.Holds edit) :
    (Edit.applyToArchive jar edits).result = Edit.resultByLength edits := by
  have hnamed : ∀ edit ∈ edits, edit.entry ∈ Edit.owners edits :=
    fun edit hedit => Edit.mem_owners_iff.mpr ⟨edit, hedit, rfl⟩
  obtain ⟨_, hresult, _⟩ :=
    Edit.applyToArchive_alike (simulates_follows jar _) hnamed (follows_ownersOf hfresh h)
  rw [hresult]
  exact Edit.result_of_hasTarget (hasTarget_of_holds hfresh h)

end Jar

/-! ## Edits of a sheet -/

namespace SheetRecord

def place (record : SheetRecord) : String × UInt16 := (record.entry, record.textIndex)

end SheetRecord

/-- A class with the new texts of changed records and no other change. -/
structure ClassFile.Revised (records : List SheetRecord) (file file' : ClassFile) : Prop where
  changed : ∀ record ∈ records, record.isChanged = true →
    (∃ old, file.pool.slots[record.textIndex.toNat]? = some (some (.utf8 old))) ∧
      file'.pool.slots[record.textIndex.toNat]? =
        some (some (.utf8 (ModifiedUtf8.encode record.value)))
  unchanged : ∀ record ∈ records, record.isChanged = false →
    file'.pool.slots[record.textIndex.toNat]? = file.pool.slots[record.textIndex.toNat]?
  kept : ∀ i, (∀ record ∈ records, record.textIndex.toNat ≠ i) →
    file'.pool.slots[i]? = file.pool.slots[i]?
  rest : file' = { file with pool := file'.pool }

namespace Sheet

variable {sheet : Sheet} {jar : Jar} {record : SheetRecord} {edit : Edit} {owner : String}

/-- The records of a sheet stand for texts in different places of a jar. -/
structure Fits (sheet : Sheet) (jar : Jar) : Prop where
  places : (sheet.strings.map SheetRecord.place).Nodup
  holds : ∀ record ∈ sheet.strings, jar.Holds record.edit

theorem mem_edits_iff : edit ∈ sheet.edits ↔
    ∃ record ∈ sheet.strings, record.isChanged = true ∧ edit = record.edit := by
  rw [edits, List.mem_map]
  constructor
  · rintro ⟨record, hrecord, rfl⟩
    obtain ⟨hmem, hchanged⟩ := List.mem_filter.mp hrecord
    exact ⟨record, hmem, hchanged, rfl⟩
  · rintro ⟨record, hmem, hchanged, rfl⟩
    exact ⟨record, List.mem_filter.mpr ⟨hmem, hchanged⟩, rfl⟩

theorem mem_ofOwner_edits_iff : edit ∈ Edit.ofOwner sheet.edits owner ↔
    ∃ record ∈ sheet.strings, record.isChanged = true ∧ record.entry = owner ∧
      edit = record.edit := by
  rw [Edit.ofOwner, List.mem_filter, mem_edits_iff, beq_iff_eq]
  constructor
  · rintro ⟨⟨record, hmem, hchanged, rfl⟩, rfl⟩
    exact ⟨record, hmem, hchanged, rfl, rfl⟩
  · rintro ⟨record, hmem, hchanged, rfl, rfl⟩
    exact ⟨⟨record, hmem, hchanged, rfl⟩, rfl⟩

theorem Fits.holds_edits (h : sheet.Fits jar) : ∀ edit ∈ sheet.edits, jar.Holds edit := by
  intro edit hedit
  obtain ⟨record, hmem, _, rfl⟩ := mem_edits_iff.mp hedit
  exact h.holds record hmem

/-- An edit of the place of a record is the edit of the record. -/
theorem Fits.eq_edit (h : sheet.Fits jar) (hmem : record ∈ sheet.strings)
    (hedit : edit ∈ Edit.ofOwner sheet.edits record.entry)
    (hindex : edit.textIndex = record.textIndex) : record.isChanged = true ∧ edit = record.edit := by
  obtain ⟨other, hother, hchanged, hentry, rfl⟩ := mem_ofOwner_edits_iff.mp hedit
  have hplace : other.place = record.place := Prod.ext hentry hindex
  obtain rfl := List.inj_on_of_nodup_map h.places hother hmem hplace
  exact ⟨hchanged, rfl⟩

theorem Fits.lastText?_eq (h : sheet.Fits jar) (hmem : record ∈ sheet.strings)
    (hchanged : record.isChanged = true) :
    Edit.lastText? (Edit.ofOwner sheet.edits record.entry) record.textIndex =
      some record.value := by
  have hedit : record.edit ∈ Edit.ofOwner sheet.edits record.entry :=
    mem_ofOwner_edits_iff.mpr ⟨record, hmem, hchanged, rfl, rfl⟩
  have hsome := Edit.isSome_lastText?_iff.mpr ⟨record.edit, hedit, rfl⟩
  rw [Edit.lastText?, Option.isSome_map] at hsome
  obtain ⟨last, hlast⟩ := Option.isSome_iff_exists.mp hsome
  obtain ⟨howned, hindex⟩ := List.mem_filter.mp (List.mem_of_getLast? hlast)
  obtain ⟨_, rfl⟩ := h.eq_edit hmem howned (beq_iff_eq.mp hindex)
  have hvalue := congrArg (Option.map Edit.value) hlast
  exact hvalue

theorem Fits.revised (h : sheet.Fits jar) {file file' : ClassFile}
    (hedited : file.EditedBy (Edit.ofOwner sheet.edits owner) file') :
    file.Revised (sheet.strings.filter (·.entry == owner)) file' := by
  refine ⟨?_, ?_, ?_, hedited.rest⟩
  · intro record hrecord hchanged
    obtain ⟨hmem, hentry⟩ := List.mem_filter.mp hrecord
    obtain rfl := beq_iff_eq.mp hentry
    exact hedited.edited record.textIndex record.value (h.lastText?_eq hmem hchanged)
  · intro record hrecord hchanged
    obtain ⟨hmem, hentry⟩ := List.mem_filter.mp hrecord
    obtain rfl := beq_iff_eq.mp hentry
    apply hedited.kept
    intro edit hedit hindex
    obtain ⟨hother, _⟩ := h.eq_edit hmem hedit (UInt16.toNat_inj.mp hindex)
    rw [hchanged] at hother
    cases hother
  · intro i hi
    apply hedited.kept
    intro edit hedit
    obtain ⟨record, hmem, _, hentry, rfl⟩ := mem_ofOwner_edits_iff.mp hedit
    exact hi record (List.mem_filter.mpr ⟨hmem, beq_iff_eq.mpr hentry⟩)

/-- A sheet is accepted if the changed values fit. -/
theorem Fits.exists_summary_iff (h : sheet.Fits jar) (hfresh : jar.replaced = []) :
    (∃ summary, (Edit.applyToArchive jar sheet.edits).result = .ok summary) ↔
      ∀ record ∈ sheet.strings, record.isChanged = true →
        (ModifiedUtf8.encode record.value).length ≤ Pool.maxTextLength := by
  rw [Jar.result_of_holds hfresh h.holds_edits, Edit.resultByLength]
  cases hfind : (Edit.grouped sheet.edits).find? fun edit => !edit.isShort with
  | none =>
    rw [List.find?_eq_none] at hfind
    constructor
    · intro _ record hmem hchanged
      have hedit := mem_edits_iff.mpr ⟨record, hmem, hchanged, rfl⟩
      have hshort := hfind record.edit ((Edit.perm_grouped sheet.edits).mem_iff.mpr hedit)
      simp only [Bool.not_eq_true', Bool.not_eq_false] at hshort
      exact Edit.isShort_iff.mp hshort
    · intro _
      exact ⟨_, rfl⟩
  | some edit =>
    have hlong := List.find?_some hfind
    have hedit := (Edit.perm_grouped sheet.edits).mem_iff.mp (List.mem_of_find?_eq_some hfind)
    obtain ⟨record, hmem, hchanged, rfl⟩ := mem_edits_iff.mp hedit
    constructor
    · rintro ⟨summary, hsummary⟩
      cases hsummary
    · intro hall
      have hshort : record.edit.isShort = true := Edit.isShort_iff.mpr (hall record hmem hchanged)
      rw [hshort] at hlong
      cases hlong

/-! ## The jar that is saved -/

/-- What becomes of a jar: classes with changed records have the new texts, and every other entry is
kept as it is. -/
structure Carries (sheet : Sheet) (jar out : Jar) : Prop where
  names : out.names = jar.names
  stored : List.Forall₂ (fun before after : Entry => after.name = before.name ∧
      ((∀ record ∈ sheet.strings, record.entry = before.name → record.isChanged = false) →
        after.method = before.method ∧ after.checksum = before.checksum ∧
          after.data = before.data))
    jar.entries.toList out.entries.toList
  kept : ∀ name content,
    (∀ record ∈ sheet.strings, record.entry = name → record.isChanged = false) →
      jar.read name = .ok content → out.read name = .ok content
  classes : ∀ record ∈ sheet.strings, record.isChanged = true → ∃ data file file',
    jar.read record.entry = .ok data ∧ ClassFile.read data = .ok file ∧
      out.read record.entry = .ok file'.write ∧ ClassFile.read file'.write = .ok file' ∧
      file.Revised (sheet.strings.filter (·.entry == record.entry)) file'

theorem notMem_owners {name : String}
    (h : ∀ record ∈ sheet.strings, record.entry = name → record.isChanged = false) :
    name ∉ Edit.owners sheet.edits := by
  intro howner
  obtain ⟨edit, hedit, hentry⟩ := Edit.mem_owners_iff.mp howner
  obtain ⟨record, hmem, hchanged, rfl⟩ := mem_edits_iff.mp hedit
  rw [h record hmem hentry] at hchanged
  cases hchanged

/-- The class of an entry that edits name, once they succeeded. -/
theorem exists_class_of_result {edits : List Edit} {summary : EditSummary}
    (hfresh : jar.replaced = []) (hholds : ∀ edit ∈ edits, jar.Holds edit)
    (hresult : (Edit.applyToArchive jar edits).result = .ok summary)
    (howner : owner ∈ Edit.owners edits) : ∃ data file file',
      jar.read owner = .ok data ∧ ClassFile.read data = .ok file ∧
        (Edit.applyToArchive jar edits).archive.read owner = .ok file'.write ∧
        ClassFile.read file'.write = .ok file' ∧
        file.EditedBy (Edit.ofOwner edits owner) file' := by
  have hnamed : ∀ edit ∈ edits, edit.entry ∈ Edit.owners edits :=
    fun edit hedit => Edit.mem_owners_iff.mpr ⟨edit, hedit, rfl⟩
  have hstart := Jar.follows_ownersOf hfresh hholds
  obtain ⟨hfollows, hsame, _⟩ :=
    Edit.applyToArchive_alike (Jar.simulates_follows jar _) hnamed hstart
  rw [hsame] at hresult
  have hrewritten := Edit.rewritten_of_applyToArchive hresult
  obtain ⟨data, new, hget, hnew⟩ := hrewritten owner howner
  obtain ⟨file, hread, happlies, rfl⟩ := Edit.rewritten_eq_ok_iff.mp hnew
  have hpatch := Edit.patch_eq_ok_iff.mpr ⟨happlies, rfl⟩
  obtain ⟨said, happly⟩ := Edit.applyToArchive_ok hrewritten
  refine ⟨data, file, _, ?_, hread, ?_, Edit.read_write_of_patch hread hpatch,
    Edit.editedBy_of_patch hpatch⟩
  · rw [hstart.read owner howner]
    exact MemoryArchive.read_eq_ok_iff.mpr hget
  · rw [hfollows.read owner howner, MemoryArchive.read_eq_ok_iff, happly,
      MemoryArchive.get?_mapBytes, hget, Option.map_some, Edit.newBytes_of_rewritten hnew]

theorem Fits.exists_carries {summary : EditSummary} (h : sheet.Fits jar)
    (hfresh : jar.replaced = [])
    (hresult : (Edit.applyToArchive jar sheet.edits).result = .ok summary)
    (hkeeps : Zip.Keeps Entry.packed (Edit.applyToArchive jar sheet.edits).archive.saved) :
    ∃ out, Jar.ofBytes (Edit.applyToArchive jar sheet.edits).archive.toBytes = .ok out ∧
      sheet.Carries jar out := by
  have hnamed : ∀ edit ∈ sheet.edits, edit.entry ∈ Edit.owners sheet.edits :=
    fun edit hedit => Edit.mem_owners_iff.mpr ⟨edit, hedit, rfl⟩
  obtain ⟨hfollows, _⟩ := Edit.applyToArchive_alike (Jar.simulates_follows jar _) hnamed
    (Jar.follows_ownersOf hfresh h.holds_edits)
  have hclasses {owner : String} (howner : owner ∈ Edit.owners sheet.edits) :=
    exists_class_of_result hfresh h.holds_edits hresult howner
  generalize (Edit.applyToArchive jar sheet.edits).archive = edited at hkeeps hfollows hclasses ⊢
  obtain ⟨out, hreopens⟩ := Jar.exists_reopens hkeeps
  have hreplaces : edited.ReplacesNamed := by
    intro name data hlookup
    exact hfollows.names_eq ▸ (hfollows.named name (hfollows.replaced name data hlookup)).1
  have hunwritten {name : String} (hname : name ∉ Edit.owners sheet.edits) :
      edited.replaced.lookup name = none := by
    rw [Option.eq_none_iff_forall_ne_some]
    intro data hlookup
    exact hname (hfollows.replaced name data hlookup)
  refine ⟨out, hreopens.opened, hreopens.shown.names_eq.trans hfollows.names_eq, ?_, ?_, ?_⟩
  · have hstored := Jar.forall₂_savedFrom (fun _ => rfl) hreopens
    rw [hfollows.entries] at hstored
    refine hstored.imp ?_
    intro before after hsaved
    refine ⟨hsaved.name, ?_⟩
    intro hunchanged
    exact hsaved.kept (hunwritten (notMem_owners hunchanged))
  · intro name content hunchanged hread
    apply hreopens.shown.read_eq_ok hreplaces
    rw [← hread, Jar.read, Jar.read, hunwritten (notMem_owners hunchanged), hfresh, Jar.find?,
      Jar.find?, hfollows.entries]
    rfl
  · intro record hmem hchanged
    have howner := Edit.mem_owners_iff.mpr
      ⟨record.edit, mem_edits_iff.mpr ⟨record, hmem, hchanged, rfl⟩, rfl⟩
    obtain ⟨data, file, file', hdata, hread, hnew, hagain, hedited⟩ :=
      hclasses howner
    exact ⟨data, file, file', hdata, hread, hreopens.shown.read_eq_ok hreplaces hnew, hagain,
      h.revised hedited⟩

end Sheet

end JarText
