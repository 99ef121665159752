import JarText.Proofs.CommandSteps
import JarText.Proofs.ListedTargets
import JarText.Proofs.RevisedJars
import JarText.Proofs.SheetText

/-!
# From a scan to a new jar

`scan` writes a sheet of a jar, someone changes values in it, and `apply` makes a new jar from it.
The sheet lists each text of the jar at most once, so no change is lost to another; a record that was
not changed makes no edit, so its text is not written even where it could not be shown as it is.
-/

set_option autoImplicit false

namespace JarText

open Text
open Zip (Entry)

/-- A sheet in which someone changed values and nothing else. -/
structure Sheet.RevisionOf (edited sheet : Sheet) : Prop where
  jar : edited.jar = sheet.jar
  fingerprint : edited.fingerprint = sheet.fingerprint
  strings : List.Forall₂ (fun record revised : SheetRecord =>
    revised = { record with value := revised.value }) sheet.strings edited.strings

namespace Command

variable {tree : FileTree} {request : ScanRequest} {bytes : Bytes} {jar : Jar}

/-! ## The sheet of a scan -/

theorem shown_sublist : (listingOf request bytes jar).shown.Sublist
    (ArchiveScan.run (Listing.runConfig request) .never jar).report.strings :=
  List.filter_sublist

theorem fits_sheetOf (hnames : jar.names.Nodup) :
    (sheetOf (listingOf request bytes jar)).Fits jar := by
  constructor
  · have hplaces : ((ArchiveScan.run (Listing.runConfig request) .never jar).report.strings.map
        FoundString.place).Nodup := ArchiveScan.nodup_place_strings hnames _
    have hshown : ((listingOf request bytes jar).shown.map FoundString.place).Nodup :=
      (shown_sublist.map FoundString.place).nodup hplaces
    rw [sheetOf, Listing.sheet, List.map_map]
    exact hshown
  · intro record hrecord
    obtain ⟨found, hfound, rfl⟩ := List.mem_map.mp hrecord
    exact ArchiveScan.exists_payload_of_mem_strings (shown_sublist.mem hfound)

end Command

namespace Sheet

variable {edited sheet : Sheet} {jar : Jar}

theorem RevisionOf.map_place_eq (h : edited.RevisionOf sheet) :
    edited.strings.map SheetRecord.place = sheet.strings.map SheetRecord.place := by
  have hplaces : List.Forall₂ Eq (sheet.strings.map SheetRecord.place)
      (edited.strings.map SheetRecord.place) := by
    rw [List.forall₂_map_left_iff, List.forall₂_map_right_iff]
    refine h.strings.imp ?_
    intro record revised hrevised
    exact (congrArg SheetRecord.place hrevised).symm
  rw [List.forall₂_eq_eq_eq] at hplaces
  exact hplaces.symm

theorem Fits.of_revision (h : sheet.Fits jar) (hedited : edited.RevisionOf sheet) :
    edited.Fits jar := by
  constructor
  · rw [hedited.map_place_eq]
    exact h.places
  · intro revised hrevised
    obtain ⟨record, hrecord, heq⟩ := exists_of_mem_right hedited.strings hrevised
    rw [heq]
    exact h.holds record hrecord

end Sheet

namespace Command

variable {tree : FileTree} {request : ScanRequest} {bytes : Bytes} {jar : Jar}

theorem gives_sheet (hformat : request.format = .json) (hread : tree.read request.path = .ok bytes)
    (hopen : Jar.ofBytes bytes = .ok jar)
    (hwrites : ∀ path ∈ request.output, ∀ content, ∃ tree', tree.write path content = .ok tree') :
    Gives tree request (sheetOf (listingOf request bytes jar)).toJson.render := by
  have hgives := gives_jarOutput hread (listing_ofBytes hopen) hwrites
  rwa [hformat, jarOutput] at hgives

/-- The sheet of a scan, with any values changed, is accepted by `apply`, which fails only for a
value that is too long, and then leaves every file as it was. Otherwise the new jar has the entries of
the old one in order: classes have the changed texts and no other change, and every entry without a
changed text is kept. -/
theorem apply_scanned_sheet {scanning : ScanRequest} (hformat : scanning.format = .json)
    (hread : tree.read scanning.path = .ok bytes) (hopen : Jar.ofBytes bytes = .ok jar)
    (hnames : jar.names.Nodup)
    (hwrites : ∀ path ∈ scanning.output, ∀ content, ∃ tree', tree.write path content = .ok tree') :
    Gives tree scanning (sheetOf (listingOf scanning bytes jar)).toJson.render ∧
    ∀ (edited : Sheet) (files : FileTree) (request : ApplyRequest),
      edited.RevisionOf (sheetOf (listingOf scanning bytes jar)) →
      Given request files bytes edited →
      ∃ outcome files', carryOutIn files (.apply request) = (outcome, files') ∧
        (outcome.code = 0 ↔ ∀ record ∈ edited.strings, record.isChanged = true →
          (ModifiedUtf8.encode record.value).length ≤ 65535) ∧
        (outcome.code ≠ 0 → files' = files ∧ ∃ length warnings, 65535 < length ∧
          outcome = .failed (("Failed to apply " ++ request.sheet) ::
            (Fault.textTooLong length).chain) warnings) ∧
        (outcome.code = 0 →
          Zip.Keeps Entry.packed (Edit.applyToArchive jar edited.edits).archive.saved →
          ∃ written out, files'.read request.output = .ok written ∧
            Jar.ofBytes written = .ok out ∧ edited.Carries jar out) := by
  refine ⟨gives_sheet hformat hread hopen hwrites, ?_⟩
  intro edited files request hedited hgiven
  have hfits : edited.Fits jar := (fits_sheetOf hnames).of_revision hedited
  have hfresh := Jar.replaced_of_ofBytes hopen
  have hshort := hfits.exists_summary_iff hfresh
  have hresult := Jar.result_of_holds hfresh hfits.holds_edits
  rcases Edit.resultByLength_cases edited.edits with ⟨summary, hok⟩ | ⟨length, hlong, herror⟩
  · rw [hok] at hresult
    obtain ⟨output, warnings, files', hrun, hwritten⟩ :=
      run_apply_of_ok hgiven hedited.fingerprint hopen hresult
    refine ⟨_, files', hrun, ?_, ?_, ?_⟩
    · exact iff_of_true rfl (hshort.mp ⟨summary, hresult⟩)
    · intro hcode
      exact absurd rfl hcode
    · intro _ hkeeps
      obtain ⟨out, hout, hcarries⟩ := hfits.exists_carries hfresh hresult hkeeps
      exact ⟨_, out, hwritten, hout, hcarries⟩
  · rw [herror] at hresult
    obtain ⟨warnings, hrun⟩ := run_apply_of_error hgiven hedited.fingerprint hopen hresult
    have hfailed : ¬∃ summary, (Edit.applyToArchive jar edited.edits).result = .ok summary := by
      rintro ⟨summary, hok⟩
      rw [hresult] at hok
      cases hok
    refine ⟨_, files, hrun, ?_, ?_, ?_⟩
    · exact iff_of_false Nat.one_ne_zero (mt hshort.mpr hfailed)
    · intro _
      exact ⟨rfl, length, warnings, hlong, rfl⟩
    · intro hcode
      exact absurd hcode Nat.one_ne_zero

/-- A class that loads two texts, of which the second is not valid modified UTF-8. -/
def greetingClass : Bytes :=
  [202, 254, 186, 190, 0, 0, 0, 52, 0, 10, 1, 0, 1, 65, 7, 0, 1, 1, 0, 4, 67, 111, 100, 101, 1, 0, 3,
    40, 41, 86, 1, 0, 2, 72, 105, 8, 0, 5, 1, 0, 1, 255, 8, 0, 7, 1, 0, 1, 110, 0, 1, 0, 2, 0, 2, 0,
    0, 0, 0, 0, 1, 0, 9, 0, 9, 0, 4, 0, 1, 0, 3, 0, 0, 0, 19, 0, 1, 0, 1, 0, 0, 0, 7, 18, 6, 87, 18,
    8, 87, 177, 0, 0, 0, 0, 0, 0]

def greetingEntries : List (String × Bytes) := [("notes.txt", [65]), ("A.class", greetingClass)]

def greetingBytes : Bytes := Jar.build greetingEntries

def greetingJar : Jar := ⟨(Jar.built greetingEntries).toArray, []⟩

def greetingScan : ScanRequest := { path := "a.jar", format := .json }

def greetingApply : ApplyRequest := { jar := "a.jar", sheet := "sheet.json", output := "b.jar" }

def changedRecord : SheetRecord := ⟨0, "A.class", 5, "A", "n()V", none, none, "Hi", "Hallo"⟩

def unchangedRecord : SheetRecord :=
  ⟨1, "A.class", 7, "A", "n()V", none, none, "\ufffd", "\ufffd"⟩

/-- The sheet of the jar with its first text changed. -/
def greetingSheet : Sheet :=
  { jar := "a.jar", fingerprint := fingerprint greetingBytes
    strings := [changedRecord, unchangedRecord] }

def greetingFiles : FileTree :=
  ⟨.folder [("a.jar", .file greetingBytes),
    ("sheet.json", .file (Utf8.encode greetingSheet.toJson.render))], []⟩

theorem small_greetingJar : greetingJar.Small :=
  Jar.small_built (by decide +kernel) (by decide) (by decide) (by decide +kernel)

theorem ofBytes_greetingBytes : Jar.ofBytes greetingBytes = .ok greetingJar := by
  have hread : Zip.read greetingBytes = .ok (Jar.built greetingEntries) :=
    Zip.read_write small_greetingJar.ordinary
  rw [Jar.ofBytes, hread]
  rfl

theorem greetingJar_mirrors : greetingJar.Mirrors (MemoryArchive.ofList greetingEntries) := by
  have hkeeps : Zip.Keeps Entry.shown (Jar.built greetingEntries) :=
    small_greetingJar.ordinary.keeps Entry.shown
  obtain ⟨jar, hopen, hmirrors⟩ := Jar.exists_mirrors (by decide) (by decide) hkeeps
  obtain rfl : greetingJar = jar := Except.ok.inj (ofBytes_greetingBytes.symm.trans hopen)
  exact hmirrors

theorem greetingSheet_revisionOf :
    greetingSheet.RevisionOf (sheetOf (listingOf greetingScan greetingBytes greetingJar)) := by
  have hrun : ArchiveScan.run (Listing.runConfig greetingScan) .never greetingJar =
      ArchiveScan.run (Listing.runConfig greetingScan) .never
        (MemoryArchive.ofList greetingEntries) :=
    ArchiveScan.run_eq_of_read_eq greetingJar_mirrors.names greetingJar_mirrors.read _ _
  have hshown : (listingOf greetingScan greetingBytes greetingJar).shown.map SheetRecord.ofFound =
      [{ changedRecord with value := "Hi" }, unchangedRecord] := by
    rw [listingOf, hrun]
    decide +kernel
  refine ⟨by decide, rfl, ?_⟩
  rw [sheetOf, Listing.sheet, hshown]
  exact .cons rfl (.cons rfl .nil)

theorem given_greeting : Given greetingApply greetingFiles greetingBytes greetingSheet where
  jar := rfl
  parsed := ⟨greetingSheet.toJson.render, rfl, Sheet.parse_render (by decide)⟩
  unforced := rfl
  free := rfl
  writes content := ⟨⟨.folder [("b.jar", .file content), ("a.jar", .file greetingBytes),
    ("sheet.json", .file (Utf8.encode greetingSheet.toJson.render))], []⟩, rfl⟩

theorem keeps_greetingJar : Zip.Keeps Entry.packed
    (Edit.applyToArchive greetingJar greetingSheet.edits).archive.saved := by
  have hnamed : ∀ edit ∈ greetingSheet.edits, True := fun _ _ => trivial
  have hmirrors :=
    (Edit.applyToArchive_alike Jar.simulates_mirrors hnamed greetingJar_mirrors).1
  have hsame : Jar.HasEntries greetingJar.entries greetingJar greetingJar := ⟨rfl, rfl⟩
  have hentries := (Edit.applyToArchive_alike (Jar.simulates_hasEntries _) hnamed hsame).1.2
  have hlength : ∀ entry ∈ (Edit.applyToArchive (MemoryArchive.ofList greetingEntries)
      greetingSheet.edits).archive.entries, entry.2.length ≤ 1000 := by decide +kernel
  have hsmall := (small_greetingJar.of_entries_eq hentries).saved (hmirrors.length_le hlength)
  exact hsmall.ordinary.keeps Entry.packed

theorem apply_greetingSheet :
    Gives greetingFiles greetingScan
        (sheetOf (listingOf greetingScan greetingBytes greetingJar)).toJson.render ∧
      greetingSheet.RevisionOf (sheetOf (listingOf greetingScan greetingBytes greetingJar)) ∧
      Given greetingApply greetingFiles greetingBytes greetingSheet ∧
      ∃ outcome files' written out,
        carryOutIn greetingFiles (.apply greetingApply) = (outcome, files') ∧ outcome.code = 0 ∧
        files'.read "b.jar" = .ok written ∧ Jar.ofBytes written = .ok out ∧
        out.names = ["notes.txt", "A.class"] ∧ out.read "notes.txt" = .ok [65] ∧
        ∃ data file, out.read "A.class" = .ok data ∧ ClassFile.read data = .ok file ∧
          file.pool.slots[5]? = some (some (.utf8 [72, 97, 108, 108, 111])) ∧
          file.pool.slots[7]? = some (some (.utf8 [255])) := by
  have hwrites : ∀ path ∈ greetingScan.output, ∀ content, ∃ tree',
      greetingFiles.write path content = .ok tree' := by
    intro path hpath
    cases hpath
  obtain ⟨hgives, happly⟩ :=
    apply_scanned_sheet rfl rfl ofBytes_greetingBytes (by decide) hwrites
  obtain ⟨outcome, files', hrun, hcode, _, hsaved⟩ :=
    happly greetingSheet greetingFiles greetingApply greetingSheet_revisionOf given_greeting
  have hsuccess : outcome.code = 0 := hcode.mpr (by decide +kernel)
  obtain ⟨written, out, hwritten, hout, hcarries⟩ := hsaved hsuccess keeps_greetingJar
  have hread (name : String) : greetingJar.read name =
      (MemoryArchive.ofList greetingEntries).read name := greetingJar_mirrors.read name
  have hnotes := hcarries.kept "notes.txt" [65] (by decide) ((hread _).trans (by decide))
  obtain ⟨data, file, file', hdata, hclass, hnew, hagain, hrevised⟩ :=
    hcarries.classes changedRecord List.mem_cons_self (by decide)
  have hbytes : (MemoryArchive.ofList greetingEntries).read "A.class" = .ok greetingClass := by
    decide +kernel
  obtain rfl : data = greetingClass := Except.ok.inj (hdata.symm.trans ((hread _).trans hbytes))
  have hslot : (ClassFile.read greetingClass).toOption.map (fun file => file.pool.slots[7]?) =
      some (some (some (.utf8 [255]))) := by decide +kernel
  rw [hclass] at hslot
  have hhallo : ModifiedUtf8.encode "Hallo" = [72, 97, 108, 108, 111] := by decide +kernel
  refine ⟨hgives, greetingSheet_revisionOf, given_greeting, outcome, files', written, out, hrun,
    hsuccess, hwritten, hout, hcarries.names.trans (by decide), hnotes, _, file', hnew, hagain, ?_,
    ?_⟩
  · rw [← hhallo]
    exact (hrevised.changed changedRecord (by decide) (by decide)).2
  · have hkept := hrevised.unchanged unchangedRecord (by decide) (by decide)
    exact hkept.trans (Option.some.inj hslot)

end Command

end JarText
