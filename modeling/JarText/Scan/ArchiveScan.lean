import JarText.Archive
import JarText.Scan.ClassScan

/-!
# The texts of an archive

A run visits the class entries in listing order. It reports each text as it is found, its progress
at every multiple of an interval, and last of all the finished report. An entry that cannot be read
or scanned is passed over with its reason. A run is cancelled between two entries only.
-/

set_option autoImplicit false

namespace JarText

structure SkippedEntry where
  entry : String
  reason : String
  deriving Repr, DecidableEq

structure Report where
  /-- The scans that found a text, in listing order. -/
  classes : List ClassScan := []
  /-- The class entries visited, with those passed over. -/
  processed : Nat := 0
  /-- The class entries of the archive. -/
  total : Nat
  skipped : List SkippedEntry := []
  /-- Whether the run stopped before the last entry. -/
  cancelled : Bool := false
  deriving Repr, DecidableEq

namespace Report

def strings (report : Report) : List FoundString :=
  report.classes.flatMap (·.strings)

def stringCount (report : Report) : Nat :=
  report.classes.foldl (fun total scan => total + scan.length) 0

theorem stringCount_eq (report : Report) : report.stringCount = report.strings.length := by
  rw [strings, List.length_flatMap, List.sum_eq_foldl, List.foldl_map]
  simp only [stringCount, ClassScan.length_eq]

end Report

inductive ScanEvent where
  | progress (processed total : Nat)
  | found (string : FoundString)
  | finished (report : Report)
  deriving Repr, DecidableEq

/-- When a run is told to stop. -/
inductive Cancellation where
  | never
  | beforeRun
  /-- While the event of this number is observed, counted from one. -/
  | atEvent (number : Nat)
  deriving Repr, DecidableEq

namespace Cancellation

/-- Whether the run has been told to stop once so many events were observed. -/
def isRequested : Cancellation → (observed : Nat) → Bool
  | never, _ => false
  | beforeRun, _ => true
  | atEvent number, observed => 0 < number && number ≤ observed

end Cancellation

structure RunConfig where
  /-- The entries between two reports of progress; zero counts as one. -/
  interval : Nat := 100
  scan : ScanConfig := {}
  deriving Repr, DecidableEq

/-- A run under way. Its lists have the latest first. -/
structure Run where
  total : Nat
  processed : Nat := 0
  classes : List ClassScan := []
  skipped : List SkippedEntry := []
  events : List ScanEvent := []
  eventCount : Nat := 0
  nextId : Nat := 0
  deriving Repr, DecidableEq

namespace Run

def report (run : Run) (cancelled : Bool) : Report :=
  { classes := run.classes.reverse, processed := run.processed, total := run.total
    skipped := run.skipped.reverse, cancelled }

def emit (run : Run) (events : List ScanEvent) : Run :=
  { run with
    events := events.reverse ++ run.events
    eventCount := run.eventCount + events.length }

def record (run : Run) (entry : String) : Except Fault ClassScan → Run
  | .ok scan =>
    let scan := scan.shift run.nextId
    let run := run.emit (scan.strings.map .found)
    { run with
      nextId := run.nextId + scan.length
      classes := if scan.isEmpty then run.classes else scan :: run.classes }
  | .error fault => { run with skipped := ⟨entry, fault.message⟩ :: run.skipped }

/-- Counts one more entry and reports progress if it is due. -/
def advance (run : Run) (interval : Nat) : Run :=
  let processed := run.processed + 1
  let run := { run with processed }
  if processed % max interval 1 = 0 then run.emit [.progress processed run.total] else run

end Run

/-- The outcome of a run: its events in order, the last of which carries the report. -/
structure RunOutcome where
  events : List ScanEvent
  report : Report
  deriving Repr, DecidableEq

namespace ArchiveScan

variable {α : Type} [Archive α]

def scanEntry (config : ScanConfig) (archive : α) (entry : String) : Except Fault ClassScan := do
  let data ← Archive.read archive entry
  ClassScan.scan config entry data

/-- Visits entries until the run is told to stop; also whether it was. -/
def visit (config : RunConfig) (cancellation : Cancellation) (archive : α) :
    List String → Run → Run × Bool
  | [], run => (run, false)
  | entry :: rest, run =>
    if cancellation.isRequested run.eventCount then (run, true)
    else
      visit config cancellation archive rest
        ((run.record entry (scanEntry config.scan archive entry)).advance config.interval)

def run (config : RunConfig) (cancellation : Cancellation) (archive : α) : RunOutcome :=
  let entries := Archive.classEntries archive
  let (final, cancelled) :=
    visit config cancellation archive entries { total := entries.length }
  let report := final.report cancelled
  { events := (ScanEvent.finished report :: final.events).reverse, report }

def warnings (report : Report) : List String :=
  report.skipped.map fun skipped => "Skipping " ++ skipped.entry ++ ": " ++ skipped.reason

end ArchiveScan

end JarText
