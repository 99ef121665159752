import JarText.Proofs.RunTrace

/-!
# Runs that are told to stop

A run that is told to stop while it visits an entry completes the visit and makes no other. It is
the front of the run that nothing stops, cut between two visits, and it cannot know what the entries
after the cut hold.
-/

set_option autoImplicit false

namespace JarText

namespace Cancellation

/-- A run stops after so many of these visits: before the first, or after the one in which the event
is observed, or after all of them if there is no such event. -/
def StopsAfter (visits : List EntryVisit) (processed : Nat) : Cancellation → Prop
  | never => processed = visits.length
  | beforeRun => processed = 0
  | atEvent number =>
    ((number = 0 ∨ (visits.flatMap (·.events)).length < number) ∧ processed = visits.length) ∨
      ∃ last, processed = last + 1 ∧
        ((visits.take last).flatMap (·.events)).length < number ∧
        number ≤ ((visits.take (last + 1)).flatMap (·.events)).length

theorem visitsUntil_of_isRequested {cancellation : Cancellation} {observed : Nat}
    (h : cancellation.isRequested observed) (visits : List EntryVisit) :
    cancellation.visitsUntil observed visits = 0 := by
  cases visits with
  | nil => rfl
  | cons visit rest => exact if_pos h

theorem visitsUntil_atEvent_zero (observed : Nat) (visits : List EntryVisit) :
    (atEvent 0).visitsUntil observed visits = visits.length := by
  induction visits generalizing observed with
  | nil => rfl
  | cons visit rest ih => exact congrArg (· + 1) (ih _)

/-- An event that was not observed yet is too late for these visits, or observed in the last visit
that is made. -/
theorem visitsUntil_atEvent {number observed : Nat} (h : observed < number)
    (visits : List EntryVisit) :
    (observed + (visits.flatMap (·.events)).length < number ∧
        (atEvent number).visitsUntil observed visits = visits.length) ∨
      ∃ last, (atEvent number).visitsUntil observed visits = last + 1 ∧
        observed + ((visits.take last).flatMap (·.events)).length < number ∧
        number ≤ observed + ((visits.take (last + 1)).flatMap (·.events)).length := by
  induction visits generalizing observed with
  | nil => exact .inl ⟨h, rfl⟩
  | cons visit rest ih =>
    have hgo : ¬ (atEvent number).isRequested observed := by
      simp only [isRequested, Bool.and_eq_true, decide_eq_true_eq]
      omega
    rw [visitsUntil, if_neg hgo]
    simp only [List.take_succ_cons, List.flatMap_cons, List.length_append, ← Nat.add_assoc]
    by_cases hin : number ≤ observed + visit.events.length
    · -- the event is observed in this visit, which is the last
      have hstop : (atEvent number).isRequested (observed + visit.events.length) := by
        simp only [isRequested, Bool.and_eq_true, decide_eq_true_eq]
        omega
      rw [visitsUntil_of_isRequested hstop]
      exact .inr ⟨0, rfl, h, hin⟩
    · rcases ih (Nat.lt_of_not_le hin) with ⟨hlate, hall⟩ | ⟨last, hlast, hbefore, hwithin⟩
      · exact .inl ⟨hlate, congrArg (· + 1) hall⟩
      · refine .inr ⟨last + 1, congrArg (· + 1) hlast, ?_, hwithin⟩
        rwa [List.take_succ_cons, List.flatMap_cons, List.length_append, ← Nat.add_assoc]

theorem stopsAfter_visitsUntil (cancellation : Cancellation) (visits : List EntryVisit) :
    cancellation.StopsAfter visits (cancellation.visitsUntil 0 visits) := by
  cases cancellation with
  | never => exact visitsUntil_never 0 visits
  | beforeRun => exact visitsUntil_beforeRun 0 visits
  | atEvent number =>
    rcases Nat.eq_zero_or_pos number with rfl | hpos
    · exact .inl ⟨.inl rfl, visitsUntil_atEvent_zero 0 visits⟩
    · have hstop := visitsUntil_atEvent hpos visits
      simp only [Nat.zero_add] at hstop
      rcases hstop with ⟨hlate, hall⟩ | hwithin
      · exact .inl ⟨.inr hlate, hall⟩
      · exact .inr hwithin

end Cancellation

/-- What is reported of a run that made these visits and no others. -/
structure RunOutcome.Reports (outcome : RunOutcome) (visits : List EntryVisit) : Prop where
  events_eq : outcome.events = visits.flatMap (·.events) ++ [.finished outcome.report]
  classes_eq : outcome.report.classes = visits.flatMap (·.outcome.classes)
  skipped_eq : outcome.report.skipped = visits.flatMap (·.outcome.skipped)
  processed_eq : outcome.report.processed = visits.length

namespace ArchiveScan

variable {α : Type} [Archive α]

theorem reports_outcomeAfter (total : Nat) (visits : List EntryVisit) :
    (outcomeAfter total visits).Reports visits :=
  ⟨rfl, rfl, rfl, rfl⟩

theorem processed_run (config : RunConfig) (cancellation : Cancellation) (archive : α) :
    (run config cancellation archive).report.processed =
      cancellation.visitsUntil 0 (visits config archive) := by
  rw [run_eq]
  exact List.length_take_of_le (cancellation.visitsUntil_le 0 _)

/-- A run makes as many visits of its course as it reports to have processed. -/
theorem run_eq_outcomeAfter_processed (config : RunConfig) (cancellation : Cancellation)
    (archive : α) :
    run config cancellation archive =
      outcomeAfter (Archive.classEntries archive).length
        ((visits config archive).take (run config cancellation archive).report.processed) := by
  rw [processed_run]
  exact run_eq config cancellation archive

theorem finished_notMem_visits {config : RunConfig} {archive : α} {visit : EntryVisit}
    (h : visit ∈ visits config archive) (report : Report) :
    ScanEvent.finished report ∉ visit.events := by
  obtain ⟨outcome, _, start, count, rfl⟩ := exists_outcome_of_mem_visitsFrom h
  intro hmem
  rcases List.mem_append.mp hmem with hfound | hprogress
  · obtain ⟨string, _, heq⟩ := List.mem_map.mp hfound
    cases heq
  · unfold ScanEvent.progressDue at hprogress
    split at hprogress
    · cases List.mem_singleton.mp hprogress
    · cases hprogress

theorem map_entry_visits (config : RunConfig) (archive : α) :
    (visits config archive).map (·.outcome.entry) = Archive.classEntries archive := by
  rw [visits, map_entry_visitsFrom, outcomes, List.map_map]
  exact List.map_id _

/-- Two archives that list the same names and hold the same in their first class entries have the
same visits there. -/
theorem take_visits_eq {β : Type} [Archive β] (config : RunConfig) {archive : α} {other : β}
    {count : Nat} (hnames : Archive.names other = Archive.names archive)
    (hread : ∀ entry ∈ (Archive.classEntries archive).take count,
      Archive.read other entry = Archive.read archive entry) :
    (visits config other).take count = (visits config archive).take count := by
  have hentries : Archive.classEntries other = Archive.classEntries archive := by
    rw [Archive.classEntries, Archive.classEntries, hnames]
  have houtcomes : (outcomes config.scan other).take count =
      (outcomes config.scan archive).take count := by
    rw [outcomes, outcomes, hentries, ← List.map_take, ← List.map_take]
    apply List.map_congr_left
    intro entry hentry
    rw [outcomeOf, outcomeOf, scanEntry, scanEntry, hread entry hentry]
  rw [visits, visits, take_visitsFrom, take_visitsFrom, hentries, houtcomes]

/-- A run that is told to stop completes the visit in which it is told and reads no later entry.
What it reports is what the run that nothing stops has reported after as many visits. -/
theorem run_stops_between_visits (config : RunConfig) (cancellation : Cancellation) (archive : α) :
    let full := run config .never archive
    let cut := run config cancellation archive
    let total := (Archive.classEntries archive).length
    let course := visits config archive
    course.map (·.outcome.entry) = Archive.classEntries archive ∧
    (∀ visit ∈ course, ∀ report, ScanEvent.finished report ∉ visit.events) ∧
    full.Reports course ∧ cut.Reports (course.take cut.report.processed) ∧
    cancellation.StopsAfter course cut.report.processed ∧
    full.report.total = total ∧ cut.report.total = total ∧ cut.report.processed ≤ total ∧
    (cut.report.cancelled ↔ cut.report.processed < total) ∧
    ∀ {β : Type} [Archive β] (other : β), Archive.names other = Archive.names archive →
      (∀ entry ∈ (Archive.classEntries archive).take cut.report.processed,
        Archive.read other entry = Archive.read archive entry) →
      run config cancellation other = cut := by
  intro full cut total course
  have hfull : full = outcomeAfter total course := run_never_eq config archive
  have hcut : cut = outcomeAfter total (course.take cut.report.processed) :=
    run_eq_outcomeAfter_processed config cancellation archive
  have hreports := reports_outcomeAfter total (course.take cut.report.processed)
  rw [← hcut] at hreports
  have hprocessed : cut.report.processed = cancellation.visitsUntil 0 course :=
    processed_run config cancellation archive
  have hlength : course.length = total := length_visits config archive
  have hle : cut.report.processed ≤ total := by
    rw [hprocessed, ← hlength]
    exact cancellation.visitsUntil_le 0 course
  refine ⟨map_entry_visits config archive, fun _ => finished_notMem_visits,
    hfull ▸ reports_outcomeAfter total course, hreports, ?_,
    congrArg (·.report.total) hfull, congrArg (·.report.total) hcut, hle, ?_, ?_⟩
  · rw [hprocessed]
    exact cancellation.stopsAfter_visitsUntil course
  · have hcancelled : cut.report.cancelled =
        decide ((course.take cut.report.processed).length < total) :=
      congrArg (·.report.cancelled) hcut
    rw [hcancelled, decide_eq_true_iff, List.length_take_of_le (hlength ▸ hle)]
  · intro β _ other hnames hread
    have htotal : (Archive.classEntries other).length = total := by
      rw [Archive.classEntries, hnames]
      rfl
    -- the visits made are the same, and they alone decide that no other is made
    have hvisits := take_visits_eq config hnames hread
    rw [hprocessed] at hvisits
    have huntil := Cancellation.visitsUntil_congr
      (by rw [length_visits, htotal, hlength]) hvisits
    rw [run_eq, htotal, huntil, hvisits, ← hprocessed]
    exact hcut.symm

end ArchiveScan

end JarText
