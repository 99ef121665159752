import JarText.Proofs.FirstLoads
import JarText.Scan.ArchiveScan

/-!
# The course of a run

What a run takes in at an entry depends on what the scan of that entry gives, on the number of
entries before it and on the number of strings found in them. So the course of a run over an archive
can be written down beforehand, one `EntryVisit` for each class entry, and a run takes in a front
part of it: all of it unless it is told to stop.
-/

set_option autoImplicit false

namespace JarText

/-! ## Renumbered scans -/

namespace ClassScan

theorem strings_shift (start : Nat) (scan : ClassScan) : (scan.shift start).strings =
    scan.strings.map fun found => { found with id := start + found.id } := by
  simp only [strings, shift, List.flatMap_map, List.map_flatMap]

theorem isEmpty_shift (start : Nat) (scan : ClassScan) :
    (scan.shift start).isEmpty = scan.isEmpty := by
  rw [isEmpty, isEmpty, shift, List.isEmpty_map]

theorem strings_of_isEmpty {scan : ClassScan} (h : scan.isEmpty) : scan.strings = [] := by
  rw [strings, List.isEmpty_iff.mp h]
  rfl

/-- Scans one after the other, with their strings numbered on. -/
def numbered : Nat → List ClassScan → List ClassScan
  | _, [] => []
  | start, scan :: rest => scan.shift start :: numbered (start + scan.length) rest

end ClassScan

def FoundString.unnumbered (found : FoundString) : FoundString :=
  { found with id := 0 }

def ClassScan.unnumbered (scan : ClassScan) : ClassScan :=
  { scan with methods := scan.methods.map fun method =>
      { method with strings := method.strings.map (·.unnumbered) } }

theorem ClassScan.unnumbered_shift (start : Nat) (scan : ClassScan) :
    (scan.shift start).unnumbered = scan.unnumbered := by
  simp only [unnumbered, shift, FoundString.unnumbered, List.map_map, Function.comp_def]

theorem ClassScan.map_unnumbered_numbered (start : Nat) (scans : List ClassScan) :
    (numbered start scans).map unnumbered = scans.map unnumbered := by
  induction scans generalizing start with
  | nil => rfl
  | cons scan rest ih => rw [numbered, List.map_cons, List.map_cons, ih, unnumbered_shift]

/-! ## The outcome of an entry -/

/-- What reading and scanning an entry gives. -/
structure EntryOutcome where
  entry : String
  result : Except Fault ClassScan

namespace EntryOutcome

def strings (outcome : EntryOutcome) : List FoundString :=
  match outcome.result with
  | .ok scan => scan.strings
  | .error _ => []

def classes (outcome : EntryOutcome) : List ClassScan :=
  match outcome.result with
  | .ok scan => if scan.isEmpty then [] else [scan]
  | .error _ => []

def skipped (outcome : EntryOutcome) : List SkippedEntry :=
  match outcome.result with
  | .ok _ => []
  | .error fault => [⟨outcome.entry, fault.message⟩]

def shift (start : Nat) (outcome : EntryOutcome) : EntryOutcome :=
  { outcome with result := outcome.result.map (·.shift start) }

variable (start : Nat) (outcome : EntryOutcome)

theorem strings_shift : (outcome.shift start).strings =
    outcome.strings.map fun found => { found with id := start + found.id } := by
  obtain ⟨entry, result⟩ := outcome
  cases result with
  | error fault => rfl
  | ok scan => exact scan.strings_shift start

theorem length_strings_shift :
    (outcome.shift start).strings.length = outcome.strings.length := by
  rw [strings_shift, List.length_map]

theorem unnumbered_strings_shift : (outcome.shift start).strings.map FoundString.unnumbered =
    outcome.strings.map FoundString.unnumbered := by
  rw [strings_shift, List.map_map]
  rfl

theorem skipped_shift : (outcome.shift start).skipped = outcome.skipped := by
  obtain ⟨entry, result⟩ := outcome
  cases result <;> rfl

theorem strings_eq_flatMap_classes : outcome.strings = outcome.classes.flatMap (·.strings) := by
  obtain ⟨entry, result⟩ := outcome
  cases result with
  | error fault => rfl
  | ok scan =>
    simp only [strings, classes]
    by_cases hempty : scan.isEmpty
    · rw [if_pos hempty, ClassScan.strings_of_isEmpty hempty]
      rfl
    · rw [if_neg hempty, List.flatMap_singleton]

/-- An outcome takes as many numbers as it has strings, and none if it failed. -/
theorem numbered_classes_append (rest : List ClassScan) :
    ClassScan.numbered start (outcome.classes ++ rest) =
      (outcome.shift start).classes ++
        ClassScan.numbered (start + outcome.strings.length) rest := by
  obtain ⟨entry, result⟩ := outcome
  cases result with
  | error fault => rfl
  | ok scan =>
    have hshift : (shift start ⟨entry, .ok scan⟩).classes =
        if scan.isEmpty then [] else [scan.shift start] := by
      simp only [shift, classes, Except.map, ClassScan.isEmpty_shift]
    rw [hshift]
    simp only [classes, strings]
    by_cases hempty : scan.isEmpty
    · simp only [if_pos hempty, ClassScan.strings_of_isEmpty hempty]
      rfl
    · rw [if_neg hempty, if_neg hempty, ← ClassScan.length_eq]
      rfl

end EntryOutcome

/-! ## The visit of an entry -/

/-- What a run takes in at one entry: its outcome, renumbered, and the progress that is due. -/
structure EntryVisit where
  outcome : EntryOutcome
  progress : List ScanEvent

def EntryVisit.events (visit : EntryVisit) : List ScanEvent :=
  visit.outcome.strings.map .found ++ visit.progress

/-- Progress is due after every `interval` entries; zero counts as one. -/
def ScanEvent.progressDue (interval processed total : Nat) : List ScanEvent :=
  if max interval 1 ∣ processed then [.progress processed total] else []

namespace Run

/-- A run with one more entry taken in. -/
def extend (run : Run) (visit : EntryVisit) : Run :=
  { total := run.total
    processed := run.processed + 1
    classes := visit.outcome.classes.reverse ++ run.classes
    skipped := visit.outcome.skipped.reverse ++ run.skipped
    events := visit.events.reverse ++ run.events
    eventCount := run.eventCount + visit.events.length
    nextId := run.nextId + visit.outcome.strings.length }

theorem record_eq (run : Run) (outcome : EntryOutcome) :
    run.record outcome.entry outcome.result =
      { run.emit ((outcome.shift run.nextId).strings.map .found) with
        classes := (outcome.shift run.nextId).classes.reverse ++ run.classes
        skipped := (outcome.shift run.nextId).skipped.reverse ++ run.skipped
        nextId := run.nextId + (outcome.shift run.nextId).strings.length } := by
  obtain ⟨entry, result⟩ := outcome
  cases result with
  | error fault => rfl
  | ok scan =>
    have hclasses : (EntryOutcome.shift run.nextId ⟨entry, .ok scan⟩).classes.reverse =
        if (scan.shift run.nextId).isEmpty then [] else [scan.shift run.nextId] := by
      simp only [EntryOutcome.shift, EntryOutcome.classes, Except.map]
      split <;> rfl
    rw [hclasses]
    simp only [record, EntryOutcome.shift, EntryOutcome.strings, EntryOutcome.skipped, Except.map,
      ClassScan.length_eq]
    by_cases hempty : (scan.shift run.nextId).isEmpty
    · simp only [if_pos hempty]
      rfl
    · simp only [if_neg hempty]
      rfl

theorem advance_eq (run : Run) (interval : Nat) :
    run.advance interval =
      { run.emit (ScanEvent.progressDue interval (run.processed + 1) run.total) with
        processed := run.processed + 1 } := by
  unfold advance ScanEvent.progressDue
  by_cases hdue : (run.processed + 1) % max interval 1 = 0
  · rw [if_pos (Nat.dvd_of_mod_eq_zero hdue)]
    exact if_pos hdue
  · rw [if_neg fun hdvd => hdue (Nat.mod_eq_zero_of_dvd hdvd)]
    exact if_neg hdue

/-- One step of a run. -/
theorem advance_record (run : Run) (outcome : EntryOutcome) (interval : Nat) :
    (run.record outcome.entry outcome.result).advance interval =
      run.extend ⟨outcome.shift run.nextId,
        ScanEvent.progressDue interval (run.processed + 1) run.total⟩ := by
  rw [advance_eq, record_eq]
  simp only [emit, extend, EntryVisit.events, List.reverse_append, List.append_assoc,
    List.length_append, Nat.add_assoc]

theorem foldl_extend (run : Run) (visits : List EntryVisit) :
    visits.foldl extend run =
      { total := run.total
        processed := run.processed + visits.length
        classes := (visits.flatMap (·.outcome.classes)).reverse ++ run.classes
        skipped := (visits.flatMap (·.outcome.skipped)).reverse ++ run.skipped
        events := (visits.flatMap (·.events)).reverse ++ run.events
        eventCount := run.eventCount + (visits.flatMap (·.events)).length
        nextId := run.nextId + (visits.flatMap (·.outcome.strings)).length } := by
  induction visits generalizing run with
  | nil => rfl
  | cons visit rest ih =>
    rw [List.foldl_cons, ih]
    simp only [extend, List.flatMap_cons, List.reverse_append, List.append_assoc,
      List.length_append, List.length_cons, Nat.add_assoc, Nat.add_comm 1]

end Run

/-! ## The course of a run -/

namespace Cancellation

/-- The number of visits until a run is told to stop, if so many events were observed before. -/
def visitsUntil (cancellation : Cancellation) (observed : Nat) : List EntryVisit → Nat
  | [] => 0
  | visit :: rest =>
    if cancellation.isRequested observed then 0
    else cancellation.visitsUntil (observed + visit.events.length) rest + 1

variable (cancellation : Cancellation) (observed : Nat) (visits : List EntryVisit)

theorem visitsUntil_le : cancellation.visitsUntil observed visits ≤ visits.length := by
  induction visits generalizing observed with
  | nil => exact Nat.le_refl 0
  | cons visit rest ih =>
    rw [visitsUntil]
    split
    · exact Nat.zero_le _
    · exact Nat.succ_le_succ (ih _)

theorem visitsUntil_never : never.visitsUntil observed visits = visits.length := by
  induction visits generalizing observed with
  | nil => rfl
  | cons visit rest ih => exact congrArg (· + 1) (ih _)

theorem visitsUntil_beforeRun : beforeRun.visitsUntil observed visits = 0 := by
  cases visits <;> rfl

variable {cancellation observed visits}

/-- Whether a run is told to stop does not depend on visits that it does not make. -/
theorem visitsUntil_congr {other : List EntryVisit} (hlength : other.length = visits.length)
    (h : other.take (cancellation.visitsUntil observed visits) =
      visits.take (cancellation.visitsUntil observed visits)) :
    cancellation.visitsUntil observed other = cancellation.visitsUntil observed visits := by
  induction visits generalizing observed other with
  | nil =>
    rw [List.length_eq_zero_iff.mp hlength]
  | cons visit rest ih =>
    obtain ⟨first, more, rfl⟩ := List.exists_cons_of_length_eq_add_one hlength
    rw [visitsUntil] at h ⊢
    rw [visitsUntil]
    by_cases hstop : cancellation.isRequested observed
    · rw [if_pos hstop, if_pos hstop]
    · rw [if_neg hstop, List.take_succ_cons, List.take_succ_cons] at h
      obtain ⟨rfl, hrest⟩ := List.cons.inj h
      rw [if_neg hstop, if_neg hstop, ih (Nat.succ.inj hlength) hrest]

end Cancellation

namespace ArchiveScan

/-- The visits of entries with these outcomes, after so many entries and strings. -/
def visitsFrom (interval total : Nat) :
    (processed nextId : Nat) → List EntryOutcome → List EntryVisit
  | _, _, [] => []
  | processed, nextId, outcome :: rest =>
    ⟨outcome.shift nextId, ScanEvent.progressDue interval (processed + 1) total⟩ ::
      visitsFrom interval total (processed + 1) (nextId + outcome.strings.length) rest

variable {α : Type} [Archive α]

/-- What an entry gives on its own. -/
def outcomeOf (config : ScanConfig) (archive : α) (entry : String) : EntryOutcome :=
  ⟨entry, scanEntry config archive entry⟩

theorem mem_strings_outcomeOf_iff {config : ScanConfig} {archive : α} {entry : String}
    {string : FoundString} : string ∈ (outcomeOf config archive entry).strings ↔
      ∃ scan, scanEntry config archive entry = .ok scan ∧ string ∈ scan.strings := by
  unfold outcomeOf EntryOutcome.strings
  cases scanEntry config archive entry <;> simp

def outcomes (config : ScanConfig) (archive : α) : List EntryOutcome :=
  (Archive.classEntries archive).map (outcomeOf config archive)

/-- What a run takes in, entry by entry, if nothing stops it. -/
def visits (config : RunConfig) (archive : α) : List EntryVisit :=
  visitsFrom config.interval (Archive.classEntries archive).length 0 0
    (outcomes config.scan archive)

theorem length_visitsFrom (interval total processed nextId : Nat) (outcomes : List EntryOutcome) :
    (visitsFrom interval total processed nextId outcomes).length = outcomes.length := by
  induction outcomes generalizing processed nextId with
  | nil => rfl
  | cons outcome rest ih => exact congrArg (· + 1) (ih _ _)

theorem visit_eq (config : RunConfig) (cancellation : Cancellation) (archive : α)
    (entries : List String) (run : Run) :
    visit config cancellation archive entries run =
      let visits := visitsFrom config.interval run.total run.processed run.nextId
        (entries.map (outcomeOf config.scan archive))
      let made := cancellation.visitsUntil run.eventCount visits
      ((visits.take made).foldl Run.extend run, decide (made < visits.length)) := by
  -- the counters of the run tell where in the course it stands
  induction entries generalizing run with
  | nil => rfl
  | cons entry rest ih =>
    have hstep := run.advance_record (outcomeOf config.scan archive entry) config.interval
    have hlength := (outcomeOf config.scan archive entry).length_strings_shift run.nextId
    rw [visit, List.map_cons, visitsFrom]
    simp only [Cancellation.visitsUntil]
    by_cases hstop : cancellation.isRequested run.eventCount
    · simp only [if_pos hstop]
      rw [List.length_cons, decide_eq_true (Nat.succ_pos _)]
      rfl
    · simp only [if_neg hstop, List.take_succ_cons, List.foldl_cons, List.length_cons,
        Nat.add_lt_add_iff_right]
      change visit config cancellation archive rest ((run.record (outcomeOf config.scan archive
        entry).entry (outcomeOf config.scan archive entry).result).advance config.interval) = _
      rw [hstep, ih]
      simp only [Run.extend, hlength]

/-- The outcome of a run that made these visits. -/
def outcomeAfter (total : Nat) (visits : List EntryVisit) : RunOutcome :=
  let report : Report :=
    { classes := visits.flatMap (·.outcome.classes)
      processed := visits.length
      total
      skipped := visits.flatMap (·.outcome.skipped)
      cancelled := decide (visits.length < total) }
  { events := visits.flatMap (·.events) ++ [.finished report], report }

theorem length_visits (config : RunConfig) (archive : α) :
    (visits config archive).length = (Archive.classEntries archive).length := by
  rw [visits, length_visitsFrom, outcomes, List.length_map]

/-- A run makes the visits of its course until it is told to stop. -/
theorem run_eq (config : RunConfig) (cancellation : Cancellation) (archive : α) :
    run config cancellation archive =
      outcomeAfter (Archive.classEntries archive).length
        ((visits config archive).take (cancellation.visitsUntil 0 (visits config archive))) := by
  have hlength := length_visits config archive
  have htake := List.length_take_of_le (cancellation.visitsUntil_le 0 (visits config archive))
  have hvisit := visit_eq config cancellation archive (Archive.classEntries archive)
    { total := (Archive.classEntries archive).length }
  change _ = (((visits config archive).take
    (cancellation.visitsUntil 0 (visits config archive))).foldl Run.extend _,
    decide (cancellation.visitsUntil 0 (visits config archive) < (visits config archive).length))
    at hvisit
  unfold run
  simp only [hvisit, Run.foldl_extend, Run.report, outcomeAfter, htake, hlength, List.append_nil,
    List.reverse_reverse, Nat.zero_add, List.reverse_cons]

theorem run_never_eq (config : RunConfig) (archive : α) :
    run config .never archive =
      outcomeAfter (Archive.classEntries archive).length (visits config archive) := by
  rw [run_eq, Cancellation.visitsUntil_never, List.take_length]

/-! ## What the visits add up to -/

section Visits

variable (interval total processed nextId : Nat) (outcomes : List EntryOutcome)

variable {interval total processed nextId outcomes} in
theorem exists_outcome_of_mem_visitsFrom {visit : EntryVisit}
    (h : visit ∈ visitsFrom interval total processed nextId outcomes) :
    ∃ outcome ∈ outcomes, ∃ start count,
      visit = ⟨outcome.shift start, ScanEvent.progressDue interval count total⟩ := by
  induction outcomes generalizing processed nextId with
  | nil => cases h
  | cons outcome rest ih =>
    rcases List.mem_cons.mp h with rfl | h
    · exact ⟨outcome, List.mem_cons_self, _, _, rfl⟩
    · obtain ⟨other, hmem, hother⟩ := ih h
      exact ⟨other, List.mem_cons_of_mem _ hmem, hother⟩

theorem take_visitsFrom (count : Nat) :
    (visitsFrom interval total processed nextId outcomes).take count =
      visitsFrom interval total processed nextId (outcomes.take count) := by
  induction outcomes generalizing processed nextId count with
  | nil => rw [visitsFrom, List.take_nil, List.take_nil, visitsFrom]
  | cons outcome rest ih =>
    cases count with
    | zero => rfl
    | succ count => rw [visitsFrom, List.take_succ_cons, List.take_succ_cons, visitsFrom, ih]

theorem map_entry_visitsFrom :
    (visitsFrom interval total processed nextId outcomes).map (·.outcome.entry) =
      outcomes.map (·.entry) := by
  induction outcomes generalizing processed nextId with
  | nil => rfl
  | cons outcome rest ih => rw [visitsFrom, List.map_cons, List.map_cons, ih, EntryOutcome.shift]

theorem flatMap_skipped_visitsFrom :
    (visitsFrom interval total processed nextId outcomes).flatMap (·.outcome.skipped) =
      outcomes.flatMap (·.skipped) := by
  induction outcomes generalizing processed nextId with
  | nil => rfl
  | cons outcome rest ih =>
    rw [visitsFrom, List.flatMap_cons, List.flatMap_cons, ih, EntryOutcome.skipped_shift]

theorem flatMap_classes_visitsFrom :
    (visitsFrom interval total processed nextId outcomes).flatMap (·.outcome.classes) =
      ClassScan.numbered nextId (outcomes.flatMap (·.classes)) := by
  induction outcomes generalizing processed nextId with
  | nil => rfl
  | cons outcome rest ih =>
    rw [visitsFrom, List.flatMap_cons, List.flatMap_cons, ih,
      EntryOutcome.numbered_classes_append]

theorem map_unnumbered_visitsFrom :
    (visitsFrom interval total processed nextId outcomes).map
        (·.outcome.strings.map FoundString.unnumbered) =
      outcomes.map (·.strings.map FoundString.unnumbered) := by
  induction outcomes generalizing processed nextId with
  | nil => rfl
  | cons outcome rest ih =>
    rw [visitsFrom, List.map_cons, List.map_cons, ih, EntryOutcome.unnumbered_strings_shift]

theorem map_events_visitsFrom :
    (visitsFrom interval total processed nextId outcomes).map (·.events) =
      ((visitsFrom interval total processed nextId outcomes).map (·.outcome.strings)).mapIdx
        fun k strings =>
          strings.map .found ++ ScanEvent.progressDue interval (processed + (k + 1)) total := by
  induction outcomes generalizing processed nextId with
  | nil => rfl
  | cons outcome rest ih =>
    rw [visitsFrom, List.map_cons, List.map_cons, List.mapIdx_cons, ih]
    simp only [EntryVisit.events, Nat.zero_add, Nat.add_assoc, Nat.add_comm 1]

/-- Outcomes whose strings are numbered from zero are numbered on from one to the next. -/
theorem map_id_visitsFrom (h : ∀ outcome ∈ outcomes,
    outcome.strings.map (·.id) = List.range outcome.strings.length) :
    ((visitsFrom interval total processed nextId outcomes).flatMap (·.outcome.strings)).map (·.id) =
      List.range' nextId
        ((visitsFrom interval total processed nextId outcomes).flatMap
          (·.outcome.strings)).length := by
  induction outcomes generalizing processed nextId with
  | nil => rfl
  | cons outcome rest ih =>
    obtain ⟨houtcome, hrest⟩ := List.forall_mem_cons.mp h
    have hids : (outcome.shift nextId).strings.map (·.id) =
        List.range' nextId outcome.strings.length := by
      rw [EntryOutcome.strings_shift, List.map_map, List.range'_eq_map_range, ← houtcome,
        List.map_map]
      rfl
    rw [visitsFrom, List.flatMap_cons, List.map_append, List.length_append, hids, ih _ _ hrest,
      EntryOutcome.length_strings_shift, List.range'_append_1]

end Visits

theorem map_id_strings_outcomeOf (config : ScanConfig) (archive : α) (entry : String) :
    (outcomeOf config archive entry).strings.map (·.id) =
      List.range (outcomeOf config archive entry).strings.length := by
  unfold outcomeOf EntryOutcome.strings
  cases hscan : scanEntry config archive entry with
  | error fault => rfl
  | ok scan =>
    obtain ⟨data, _, hscan⟩ := except_bind_eq_ok_iff.mp hscan
    exact ClassScan.map_id_strings hscan

/-- The strings of a whole course are numbered from zero. -/
theorem map_id_visits (config : RunConfig) (archive : α) :
    ((visits config archive).flatMap (·.outcome.strings)).map (·.id) =
      List.range ((visits config archive).flatMap (·.outcome.strings)).length := by
  rw [List.range_eq_range']
  apply map_id_visitsFrom
  intro outcome hmem
  obtain ⟨entry, _, rfl⟩ := List.mem_map.mp hmem
  exact map_id_strings_outcomeOf config.scan archive entry

theorem strings_outcomeAfter (total : Nat) (visits : List EntryVisit) :
    (outcomeAfter total visits).report.strings = visits.flatMap (·.outcome.strings) := by
  rw [Report.strings, outcomeAfter, List.flatMap_assoc]
  simp only [EntryOutcome.strings_eq_flatMap_classes]

theorem classes_run_never (config : RunConfig) (archive : α) :
    (run config .never archive).report.classes =
      ClassScan.numbered 0 ((outcomes config.scan archive).flatMap (·.classes)) := by
  rw [run_never_eq]
  exact flatMap_classes_visitsFrom _ _ _ _ _

/-- A run that nothing stops reports, entry by entry, the strings that the scan of the entry alone
finds, and its progress when it is due; its report holds the same scans. What fails is passed over
and changes nothing in what is listed. -/
theorem run_reports_scans_alone (config : RunConfig) (archive : α) :
    let outcome := run config .never archive
    let alone := outcomes config.scan archive
    let total := (Archive.classEntries archive).length
    ∃ found : List (List FoundString),
      found.map (·.map FoundString.unnumbered) =
        alone.map (·.strings.map FoundString.unnumbered) ∧
      found.flatten.map (·.id) = List.range found.flatten.length ∧
      outcome.events = (found.mapIdx fun k strings => strings.map .found ++
        ScanEvent.progressDue config.interval (k + 1) total).flatten ++
          [.finished outcome.report] ∧
      outcome.report.strings = found.flatten ∧
      outcome.report.stringCount = found.flatten.length ∧
      outcome.report.classes.map ClassScan.unnumbered =
        (alone.flatMap (·.classes)).map ClassScan.unnumbered ∧
      outcome.report.skipped = alone.flatMap (·.skipped) ∧
      outcome.report.processed = total ∧ outcome.report.total = total ∧
      outcome.report.cancelled = false ∧
      ∀ {β : Type} [Archive β] (other : β),
        (outcomes config.scan other).flatMap (·.classes) = alone.flatMap (·.classes) →
          (run config .never other).report.classes = outcome.report.classes := by
  intro outcome alone total
  let course := visits config archive
  have houtcome : outcome = outcomeAfter total course := run_never_eq config archive
  have hlength : course.length = total := length_visits config archive
  have hstrings : outcome.report.strings = (course.map (·.outcome.strings)).flatten := by
    rw [houtcome, strings_outcomeAfter, List.flatMap_def]
  have hevents : course.map (·.events) = (course.map (·.outcome.strings)).mapIdx fun k strings =>
      strings.map .found ++ ScanEvent.progressDue config.interval (k + 1) total := by
    have hvisits := map_events_visitsFrom config.interval total 0 0 alone
    simp only [Nat.zero_add] at hvisits
    exact hvisits
  refine ⟨course.map (·.outcome.strings), ?_, ?_, ?_, hstrings, ?_, ?_, ?_, ?_, ?_, ?_, ?_⟩
  · rw [List.map_map]
    exact map_unnumbered_visitsFrom _ _ _ _ _
  · rw [← List.flatMap_def]
    exact map_id_visits config archive
  · rw [← hevents, ← List.flatMap_def, houtcome]
    rfl
  · rw [Report.stringCount_eq, hstrings]
  · rw [classes_run_never, ClassScan.map_unnumbered_numbered]
  · rw [houtcome]
    exact flatMap_skipped_visitsFrom _ _ _ _ _
  · rw [houtcome]
    exact hlength
  · rw [houtcome]
    rfl
  · rw [houtcome]
    exact decide_eq_false (hlength ▸ Nat.lt_irrefl _)
  · intro β _ other hother
    rw [classes_run_never, classes_run_never, hother]

end ArchiveScan

end JarText
