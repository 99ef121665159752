import JarText.Proofs.EditRuns
import JarText.Proofs.EditedScan
import JarText.Proofs.RunTrace

/-!
# Scanning, editing and scanning again

Runs over two archives whose entries scan alike but for new texts go in step. Edits of texts that a
report lists can be applied, and make of the archive one whose entries scan so: a second run finds
the same strings with the new texts.
-/

set_option autoImplicit false

namespace JarText

open Text

/-! ## New texts in a run -/

def Report.retext (news : String → UInt16 → Option String) (report : Report) : Report :=
  { report with classes := report.classes.map (·.retext news) }

def ScanEvent.retext (news : String → UInt16 → Option String) : ScanEvent → ScanEvent
  | progress processed total => progress processed total
  | found string => found (string.retext news)
  | finished report => finished (report.retext news)

def Run.retext (news : String → UInt16 → Option String) (run : Run) : Run :=
  { run with
    classes := run.classes.map (·.retext news)
    events := run.events.map (·.retext news) }

def RunOutcome.retext (news : String → UInt16 → Option String) (outcome : RunOutcome) :
    RunOutcome where
  events := outcome.events.map (·.retext news)
  report := outcome.report.retext news

section Retext

variable (news : String → UInt16 → Option String)

theorem ClassScan.strings_retext (scan : ClassScan) :
    (scan.retext news).strings = scan.strings.map (·.retext news) := by
  simp only [strings, retext, List.flatMap_map, List.map_flatMap]
  rfl

theorem ClassScan.shift_retext (start : Nat) (scan : ClassScan) :
    (scan.retext news).shift start = (scan.shift start).retext news := by
  simp only [shift, retext, MethodStrings.retext, FoundString.retext, List.map_map,
    Function.comp_def]

theorem ClassScan.length_retext (scan : ClassScan) : (scan.retext news).length = scan.length := by
  rw [length_eq, strings_retext, List.length_map, length_eq]

theorem ClassScan.isEmpty_retext (scan : ClassScan) :
    (scan.retext news).isEmpty = scan.isEmpty := by
  rw [isEmpty, isEmpty, retext, List.isEmpty_map]

theorem Run.emit_retext (run : Run) (events : List ScanEvent) :
    (run.retext news).emit (events.map (·.retext news)) = (run.emit events).retext news := by
  simp only [emit, retext, List.map_append, List.map_reverse, List.length_map]

theorem Run.report_retext (run : Run) (cancelled : Bool) :
    (run.retext news).report cancelled = (run.report cancelled).retext news := by
  simp only [report, retext, Report.retext, List.map_reverse]

theorem Run.record_retext (run : Run) (entry : String) (outcome : Except Fault ClassScan) :
    (run.retext news).record entry (outcome.map (·.retext news)) =
      (run.record entry outcome).retext news := by
  cases outcome with
  | error fault => rfl
  | ok scan =>
    have hevents (strings : List FoundString) :
        (strings.map (·.retext news)).map ScanEvent.found =
          (strings.map ScanEvent.found).map (·.retext news) := by
      rw [List.map_map, List.map_map]
      rfl
    have hid : (run.retext news).nextId = run.nextId := rfl
    change (run.retext news).record entry (.ok (scan.retext news)) = _
    simp only [record, hid, ClassScan.shift_retext, ClassScan.strings_retext,
      ClassScan.isEmpty_retext, ClassScan.length_retext, hevents, emit_retext]
    by_cases hempty : (scan.shift run.nextId).isEmpty
    · simp only [if_pos hempty]
      rfl
    · simp only [if_neg hempty]
      rfl

theorem Run.advance_retext (run : Run) (interval : Nat) :
    (run.retext news).advance interval = (run.advance interval).retext news := by
  have hprocessed : (run.retext news).processed = run.processed := rfl
  simp only [advance, hprocessed]
  by_cases hdue : (run.processed + 1) % max interval 1 = 0
  · rw [if_pos hdue, if_pos hdue, ← emit_retext]
    rfl
  · rw [if_neg hdue, if_neg hdue]
    rfl

end Retext

namespace ArchiveScan

variable {α β : Type} [Archive α] [Archive β] {news : String → UInt16 → Option String}
  {archive : α} {archive' : β} {config : RunConfig}

/-- Two visits in step. -/
theorem visit_retext {entries : List String}
    (h : ∀ entry ∈ entries, scanEntry config.scan archive' entry =
      (scanEntry config.scan archive entry).map (·.retext news))
    (cancellation : Cancellation) (run : Run) :
    visit config cancellation archive' entries (run.retext news) =
      ((visit config cancellation archive entries run).1.retext news,
        (visit config cancellation archive entries run).2) := by
  induction entries generalizing run with
  | nil => rfl
  | cons entry rest ih =>
    obtain ⟨hentry, hrest⟩ := List.forall_mem_cons.mp h
    simp only [visit]
    by_cases hstop : cancellation.isRequested run.eventCount
    · rw [if_pos hstop]
      exact if_pos hstop
    · rw [if_neg hstop, hentry, Run.record_retext, Run.advance_retext]
      exact (if_neg hstop).trans (ih hrest _)

theorem run_retext (hnames : Archive.names archive' = Archive.names archive)
    (h : ∀ entry, scanEntry config.scan archive' entry =
      (scanEntry config.scan archive entry).map (·.retext news))
    (cancellation : Cancellation) :
    run config cancellation archive' = (run config cancellation archive).retext news := by
  have hentries : Archive.classEntries archive' = Archive.classEntries archive := by
    rw [Archive.classEntries, Archive.classEntries, hnames]
  have hvisit : visit config cancellation archive' (Archive.classEntries archive)
      { total := (Archive.classEntries archive).length } = _ :=
    visit_retext (fun entry _ => h entry) cancellation { total := _ }
  simp only [run, hentries, hvisit, Run.report_retext]
  rw [RunOutcome.retext, List.map_reverse]
  rfl

/-! ## What a report lists -/

/-- A listed string is one of its entry's scan, renumbered. -/
theorem exists_scan_of_mem_strings {cancellation : Cancellation} {found : FoundString}
    (h : found ∈ (run config cancellation archive).report.strings) :
    ∃ entry scan string, scanEntry config.scan archive entry = .ok scan ∧ string ∈ scan.strings ∧
      found.entry = string.entry ∧ found.textIndex = string.textIndex := by
  obtain ⟨listed, hlisted, hfound⟩ := List.mem_flatMap.mp h
  rw [run_eq] at hlisted
  obtain ⟨visit, hvisit, hlisted⟩ := List.mem_flatMap.mp hlisted
  obtain ⟨outcome, houtcome, start, _, rfl⟩ :=
    exists_outcome_of_mem_visitsFrom (List.mem_of_mem_take hvisit)
  obtain ⟨entry, _, rfl⟩ := List.mem_map.mp houtcome
  have hfound : found ∈ ((outcomeOf config.scan archive entry).shift start).strings := by
    rw [EntryOutcome.strings_eq_flatMap_classes]
    exact List.mem_flatMap.mpr ⟨listed, hlisted, hfound⟩
  rw [EntryOutcome.strings_shift] at hfound
  obtain ⟨string, hstring, rfl⟩ := List.mem_map.mp hfound
  obtain ⟨scan, hscan, hstring⟩ := mem_strings_outcomeOf_iff.mp hstring
  exact ⟨entry, scan, string, hscan, hstring, rfl, rfl⟩

/-- A listed string names a class that can be read, and in it a text. -/
theorem exists_payload_of_mem_strings {cancellation : Cancellation} {found : FoundString}
    (h : found ∈ (run config cancellation archive).report.strings) :
    ∃ data file bytes, Archive.read archive found.entry = .ok data ∧
      ClassFile.read data = .ok file ∧ file.pool.payload found.textIndex = .ok bytes := by
  obtain ⟨entry, scan, string, hscan, hstring, hentry, htext⟩ := exists_scan_of_mem_strings h
  obtain ⟨data, hdata, hscan⟩ := except_bind_eq_ok_iff.mp hscan
  obtain ⟨file, load, hread, hyields⟩ := ClassScan.exists_load_of_mem_strings hscan hstring
  have hvalue := hyields.value_eq
  rw [← hyields.textIndex_eq, ← htext, Pool.text] at hvalue
  rw [hentry, hyields.entry_eq]
  cases hpayload : file.pool.payload found.textIndex with
  | ok bytes => exact ⟨data, file, bytes, hdata, hread, hpayload⟩
  | error fault =>
    rw [hpayload] at hvalue
    cases hvalue

/-! ## Cancellation -/

theorem cancelled_never (config : RunConfig) (archive : α) :
    (run config .never archive).report.cancelled = false := by
  rw [run_never_eq, outcomeAfter, length_visits]
  exact decide_eq_false (Nat.lt_irrefl _)

/-- All runs that are not cancelled are one. -/
theorem run_eq_of_not_cancelled {cancellation : Cancellation}
    (h : (run config cancellation archive).report.cancelled = false) :
    run config cancellation archive = run config .never archive := by
  rw [run_eq] at h
  have hall := Nat.le_of_not_lt (of_decide_eq_false h)
  rw [← length_visits config archive, List.length_take] at hall
  rw [run_eq, run_never_eq, List.take_of_length_le (Nat.le_trans hall (Nat.min_le_left _ _))]

end ArchiveScan

/-! ## Editing what was found -/

namespace Edit

/-- The text that the last edit of an index in an entry gives it. -/
def newText? (edits : List Edit) (entry : String) (index : UInt16) : Option String :=
  lastText? (ofOwner edits entry) index

/-- An edit of a text that a report lists, which is not too long and is put in place of no name. -/
structure Retexts (archive : MemoryArchive) (report : Report) (edit : Edit) : Prop where
  found : ∃ found ∈ report.strings, edit = found.edit edit.value
  short : (ModifiedUtf8.encode edit.value).length ≤ 65535
  unnamed : ∀ data file, archive.read edit.entry = .ok data → ClassFile.read data = .ok file →
    file.usesAsName edit.textIndex = false

variable {config : RunConfig} {cancellation : Cancellation} {archive : MemoryArchive}
  {edit : Edit} {edits : List Edit} {entry : String} {data : Bytes} {file : ClassFile}

theorem Retexts.exists_class
    (h : edit.Retexts archive (ArchiveScan.run config cancellation archive).report) :
    ∃ data file, archive.read edit.entry = .ok data ∧ ClassFile.read data = .ok file ∧
      edit.Applies file.pool := by
  obtain ⟨found, hfound, hedit⟩ := h.found
  obtain ⟨data, file, bytes, hdata, hread, hpayload⟩ :=
    ArchiveScan.exists_payload_of_mem_strings hfound
  have hentry : edit.entry = found.entry := congrArg Edit.entry hedit
  have htext : edit.textIndex = found.textIndex := congrArg Edit.textIndex hedit
  exact ⟨data, file, hentry ▸ hdata, hread, h.short, bytes, htext ▸ hpayload⟩

variable
  (h : ∀ edit ∈ edits, edit.Retexts archive (ArchiveScan.run config cancellation archive).report)
include h

theorem applies_of_retexts (hdata : archive.read entry = .ok data)
    (hread : ClassFile.read data = .ok file) :
    ∀ edit ∈ ofOwner edits entry, edit.Applies file.pool := by
  intro edit hmem
  obtain ⟨hmem, hentry⟩ := List.mem_filter.mp hmem
  obtain ⟨data', file', hdata', hread', happlies⟩ := (h edit hmem).exists_class
  rw [beq_iff_eq.mp hentry, hdata] at hdata'
  cases hdata'
  rw [hread] at hread'
  cases hread'
  exact happlies

theorem unnamed_of_retexts (hdata : archive.read entry = .ok data)
    (hread : ClassFile.read data = .ok file) :
    file.Unnamed fun i => (newText? edits entry i).isSome := by
  intro i hi
  obtain ⟨edit, howned, rfl⟩ := isSome_lastText?_iff.mp hi
  obtain ⟨hmem, hentry⟩ := List.mem_filter.mp howned
  rw [← beq_iff_eq.mp hentry] at hdata
  exact (h edit hmem).unnamed data file hdata hread

theorem rewritten_of_retexts (hdata : archive.read entry = .ok data)
    (hread : ClassFile.read data = .ok file) :
    rewritten (ofOwner edits entry) data =
      .ok { file with pool := file.pool.withTexts (ofOwner edits entry) }.write :=
  rewritten_eq_ok_iff.mpr ⟨file, hread, applies_of_retexts h hdata hread, rfl⟩

/-- An entry of the edited archive scans as before, with the new texts. -/
theorem scanEntry_eq (scanConfig : ScanConfig) (entry : String) :
    ArchiveScan.scanEntry scanConfig (archive.mapBytes (newBytes edits)) entry =
      (ArchiveScan.scanEntry scanConfig archive entry).map (·.retext (newText? edits)) := by
  unfold ArchiveScan.scanEntry
  simp only [MemoryArchive.archive_read, MemoryArchive.read_mapBytes]
  cases hdata : archive.read entry with
  | error fault => rfl
  | ok data =>
    change ClassScan.scan scanConfig entry (newBytes edits entry data) =
      (ClassScan.scan scanConfig entry data).map _
    cases hread : ClassFile.read data with
    | error fault =>
      -- nothing can be edited in what is no class
      rw [newBytes_of_unread hread]
      unfold ClassScan.scan
      rw [hread]
      rfl
    | ok file =>
      have happlies := applies_of_retexts h hdata hread
      obtain ⟨hfits, rfl⟩ := ClassFile.read_eq_ok_iff.mp hread
      rw [newBytes_of_rewritten (rewritten_of_retexts h hdata hread)]
      exact ClassScan.scan_write_retext (Pool.withTexts_becomes happlies)
        (unnamed_of_retexts h hdata hread) scanConfig hfits (hfits.pool.withTexts happlies)

theorem applyToArchive_of_retexts : ∃ summary said, applyToArchive archive edits =
    ⟨archive.mapBytes (newBytes edits), .ok summary, said⟩ := by
  refine ⟨_, applyToArchive_ok fun owner howner => ?_⟩
  obtain ⟨edit, hmem, rfl⟩ := mem_owners_iff.mp howner
  obtain ⟨data, file, hdata, hread, _⟩ := (h edit hmem).exists_class
  exact ⟨data, _, MemoryArchive.read_eq_ok_iff.mp hdata, rewritten_of_retexts h hdata hread⟩

omit h

/-- Edits of texts that a run found can be applied, and a run over the edited archive finds what the
first run found, with the last text that an edit gave to each. -/
theorem run_after_edits
    (hrun : (ArchiveScan.run config cancellation archive).report.cancelled = false)
    (hedits : ∀ edit ∈ edits,
      edit.Retexts archive (ArchiveScan.run config cancellation archive).report) :
    (∃ summary, (applyToArchive archive edits).result = .ok summary) ∧
      ∀ rerun,
        (ArchiveScan.run config rerun (applyToArchive archive edits).archive).report.cancelled =
          false →
        (ArchiveScan.run config rerun (applyToArchive archive edits).archive).report =
          (ArchiveScan.run config cancellation archive).report.retext (newText? edits) := by
  obtain ⟨summary, said, happly⟩ := applyToArchive_of_retexts hedits
  rw [happly]
  refine ⟨⟨summary, rfl⟩, ?_⟩
  intro rerun hrerun
  -- both runs are the one that nothing stops, and that one goes in step on the two archives
  rw [ArchiveScan.run_eq_of_not_cancelled hrerun, ArchiveScan.run_eq_of_not_cancelled hrun]
  have hretext := ArchiveScan.run_retext (MemoryArchive.names_mapBytes (newBytes edits))
    (scanEntry_eq hedits config.scan) .never
  exact congrArg RunOutcome.report hretext

/-- A class, an entry that is no class for all its name, and another file. -/
def specimenArchive : MemoryArchive :=
  ⟨[("A.class", ClassFile.specimenBytes), ("B.class", [202, 254]), ("notes.txt", [72, 105])],
    by decide⟩

def specimenEdits : List Edit :=
  [⟨"A.class", 6, "x"⟩, ⟨"A.class", 11, ""⟩, ⟨"A.class", 6, "Grüße"⟩]

theorem retexts_specimen : ∀ edit ∈ specimenEdits,
    edit.Retexts specimenArchive (ArchiveScan.run {} .never specimenArchive).report := by
  have hfound : ∀ edit ∈ specimenEdits,
      ∃ found ∈ (ArchiveScan.run {} .never specimenArchive).report.strings,
        edit = found.edit edit.value := by decide +kernel
  have hshort : ∀ edit ∈ specimenEdits, (ModifiedUtf8.encode edit.value).length ≤ 65535 := by
    decide +kernel
  have hentry : ∀ edit ∈ specimenEdits, edit.entry = "A.class" := by decide
  have hunnamed : ∀ edit ∈ specimenEdits,
      ClassFile.specimen.usesAsName edit.textIndex = false := by decide +kernel
  intro edit hmem
  refine ⟨hfound edit hmem, hshort edit hmem, ?_⟩
  intro data file hdata hread
  rw [hentry edit hmem] at hdata
  obtain rfl : ClassFile.specimenBytes = data := Except.ok.inj hdata
  rw [ClassFile.read_specimenBytes] at hread
  cases hread
  exact hunnamed edit hmem

theorem run_after_specimen_edits :
    (ArchiveScan.run {} .never specimenArchive).report.cancelled = false ∧
      (∀ edit ∈ specimenEdits,
        edit.Retexts specimenArchive (ArchiveScan.run {} .never specimenArchive).report) ∧
      (∃ summary, (applyToArchive specimenArchive specimenEdits).result = .ok summary) ∧
      (ArchiveScan.run {} .never (applyToArchive specimenArchive specimenEdits).archive).report =
        (ArchiveScan.run {} .never specimenArchive).report.retext (newText? specimenEdits) ∧
      (ArchiveScan.run {} .never specimenArchive).report.strings.map (·.value) = ["Hi", "Bye"] ∧
      ((ArchiveScan.run {} .never specimenArchive).report.retext
        (newText? specimenEdits)).strings.map (·.value) = ["Grüße", ""] := by
  have hrun := ArchiveScan.cancelled_never {} specimenArchive
  obtain ⟨hok, hrerun⟩ := run_after_edits hrun retexts_specimen
  exact ⟨hrun, retexts_specimen, hok, hrerun .never (ArchiveScan.cancelled_never {} _),
    by decide +kernel, by decide +kernel⟩

end Edit

end JarText
