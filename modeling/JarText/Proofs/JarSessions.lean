import JarText.Proofs.ArchiveEdits
import JarText.Proofs.SavedJar

/-!
# Sessions with a jar

A jar and the entries in memory that it was made of cannot be told apart: whatever is asked of both,
in any order, they give the same answers and the same faults. The jar may be saved and opened again
at any point. What has to be kept of the files that are written is told by `WritesKept`.
-/

set_option autoImplicit false

namespace JarText

open Zip (Entry)

/-! ## Sessions -/

/-- What is asked of an archive in a session. -/
inductive SessionStep where
  | names
  | classEntries
  | contains (name : String)
  | read (name : String)
  | replace (name : String) (data : Bytes)
  | scan (config : RunConfig) (cancellation : Cancellation)
  | edit (edits : List Edit)
  /-- Writes the archive to a file and opens that. -/
  | reopen
  deriving Repr, DecidableEq

inductive SessionAnswer where
  | names (names : List String)
  | contains (found : Bool)
  | read (content : Except Fault Bytes)
  | changed (outcome : Except Fault Unit)
  | scanned (outcome : RunOutcome)
  | edited (result : Except Fault EditSummary) (warnings : List String)

namespace SessionStep

variable {α : Type} [Archive α]

def attempt (archive : α) : Except Fault α → SessionAnswer × α
  | .ok archive => (.changed (.ok ()), archive)
  | .error fault => (.changed (.error fault), archive)

/-- Takes a step of a session with an archive that is opened again by `reopen`. -/
def perform (reopen : α → Except Fault α) (archive : α) : SessionStep → SessionAnswer × α
  | names => (.names (Archive.names archive), archive)
  | classEntries => (.names (Archive.classEntries archive), archive)
  | contains name => (.contains (Archive.contains archive name), archive)
  | read name => (.read (Archive.read archive name), archive)
  | replace name data => attempt archive (Archive.replace archive name data)
  | scan config cancellation => (.scanned (ArchiveScan.run config cancellation archive), archive)
  | edit edits =>
    let outcome := Edit.applyToArchive archive edits
    (.edited outcome.result outcome.warnings, outcome.archive)
  | .reopen => attempt archive (reopen archive)

def answers (reopen : α → Except Fault α) : List SessionStep → α → List SessionAnswer
  | [], _ => []
  | step :: rest, archive =>
    (perform reopen archive step).1 :: answers reopen rest (perform reopen archive step).2

end SessionStep

namespace Jar

variable {jar reopened : Jar} {memory : MemoryArchive} {name : String}

def reopen (jar : Jar) : Except Fault Jar := ofBytes jar.toBytes

/-- Each file that is written in a session shows what was put in it. -/
def WritesKept : List SessionStep → Jar → Prop
  | [], _ => True
  | step :: rest, jar =>
    (step = .reopen → Zip.Keeps Entry.shown jar.saved) ∧
      WritesKept rest (SessionStep.perform reopen jar step).2

def built (entries : List (String × Bytes)) : List Entry :=
  entries.map fun entry => newEntry entry.1 entry.2

/-- A jar that shows what is in memory. -/
structure Mirrors (jar : Jar) (memory : MemoryArchive) : Prop where
  names : jar.names = memory.names
  read : ∀ name, jar.read name = memory.read name
  replacesNamed : jar.ReplacesNamed

end Jar

namespace MemoryArchive

variable {memory : MemoryArchive} {name : String}

theorem isSome_get?_iff : (memory.get? name).isSome = true ↔ name ∈ memory.names := by
  rw [Option.isSome_iff_exists, names, List.mem_map]
  constructor
  · rintro ⟨data, hget⟩
    exact ⟨(name, data), get?_eq_some_iff.mp hget, rfl⟩
  · rintro ⟨⟨other, data⟩, hmem, rfl⟩
    exact ⟨data, get?_eq_some_iff.mpr hmem⟩

theorem get?_setBytes_self {data : Bytes} (h : name ∈ memory.names) :
    (memory.setBytes name data).get? name = some data := by
  obtain ⟨old, hold⟩ := Option.isSome_iff_exists.mp (isSome_get?_iff.mpr h)
  rw [setBytes_eq_mapBytes, get?_mapBytes, hold, Option.map_some, if_pos rfl]

theorem names_setBytes {data : Bytes} : (memory.setBytes name data).names = memory.names := by
  rw [setBytes_eq_mapBytes, names_mapBytes]

theorem read_eq_missing (h : name ∉ memory.names) :
    memory.read name = .error (.entryMissing name) := by
  have hnone : memory.get? name = none :=
    Option.not_isSome_iff_eq_none.mp (mt isSome_get?_iff.mp h)
  rw [read, hnone]

theorem exists_read_eq_ok (h : name ∈ memory.names) : ∃ data, memory.read name = .ok data := by
  obtain ⟨data, hget⟩ := Option.isSome_iff_exists.mp (isSome_get?_iff.mpr h)
  exact ⟨data, read_eq_ok_iff.mpr hget⟩

theorem entries_foldl_insert {entries : List (String × Bytes)} {memory : MemoryArchive}
    (h : (memory.names ++ entries.map (·.1)).Nodup) :
    (entries.foldl (fun archive entry => archive.insert entry.1 entry.2) memory).entries =
      memory.entries ++ entries := by
  induction entries generalizing memory with
  | nil => exact (List.append_nil _).symm
  | cons entry entries ih =>
    rw [List.map_cons, List.append_cons] at h
    have hfresh : entry.1 ∉ memory.names := by
      intro hmem
      exact (List.nodup_append.mp (List.nodup_append.mp h).1).2.2 _ hmem _ List.mem_cons_self rfl
    have hlookup : memory.entries.lookup entry.1 = none :=
      Option.not_isSome_iff_eq_none.mp (mt isSome_get?_iff.mp hfresh)
    have hinsert : (memory.insert entry.1 entry.2).entries = memory.entries ++ [entry] := by
      rw [insert]
      split
      · rename_i old hfound
        rw [hlookup] at hfound
        cases hfound
      · rfl
    have hnames : (memory.insert entry.1 entry.2).names = memory.names ++ [entry.1] := by
      rw [names, hinsert, List.map_append]
      rfl
    rw [List.foldl_cons, ih (hnames ▸ h), hinsert, List.append_assoc]
    rfl

theorem entries_ofList {entries : List (String × Bytes)} (h : (entries.map (·.1)).Nodup) :
    (ofList entries).entries = entries :=
  entries_foldl_insert h

end MemoryArchive

namespace Jar

variable {jar reopened : Jar} {memory : MemoryArchive} {name : String}

theorem Mirrors.contains_eq (h : jar.Mirrors memory) (name : String) :
    jar.contains name = (memory.get? name).isSome := by
  rw [Bool.eq_iff_iff, contains_iff, MemoryArchive.isSome_get?_iff, h.names]

theorem read_replaced {data : Bytes} (jar : Jar) (name other : String) :
    ({ jar with replaced := (name, data) :: jar.replaced.filter (·.1 ≠ name) } : Jar).read other =
      if other = name then .ok data else jar.read other := by
  rw [read, lookup_put]
  by_cases hother : other = name
  · rw [if_pos hother, if_pos hother]
  · rw [if_neg hother, if_neg hother]
    rfl

/-- A content that was replaced on both sides is read alike. -/
theorem read_replaced_eq {data : Bytes} {other : String} (hname : name ∈ memory.names)
    (h : jar.read other = memory.read other) :
    ({ jar with replaced := (name, data) :: jar.replaced.filter (·.1 ≠ name) } : Jar).read other =
      (memory.setBytes name data).read other := by
  rw [read_replaced, MemoryArchive.read]
  by_cases hother : other = name
  · rw [if_pos hother, hother, MemoryArchive.get?_setBytes_self hname]
  · rw [if_neg hother, h, MemoryArchive.get?_setBytes_of_ne hother]
    rfl

theorem simulates_mirrors : Simulates (fun _ => True) Mirrors where
  contains_eq := by
    intro jar memory name h _
    exact h.contains_eq name
  read_eq := by
    intro jar memory name h _
    exact h.read name
  replace := by
    intro jar memory name data h _
    have hjar : Archive.replace jar name data = jar.replace name data := rfl
    have hmemory : Archive.replace memory name data = memory.replace name data := rfl
    rw [hjar, hmemory, replace, MemoryArchive.replace, h.contains_eq]
    cases hget : memory.get? name with
    | none => exact .error (.entryMissing name)
    | some old =>
      have hmem : name ∈ memory.names := MemoryArchive.isSome_get?_iff.mp (by rw [hget]; rfl)
      refine .ok ⟨?_, ?_, ?_⟩
      · rw [MemoryArchive.names_setBytes, ← h.names]
        rfl
      · intro other
        exact read_replaced_eq hmem (h.read other)
      · intro other content hlookup
        rw [lookup_put] at hlookup
        split_ifs at hlookup with hother
        · rw [hother]
          exact h.names ▸ hmem
        · exact h.replacesNamed other content hlookup

/-- What is read back from the file that is saved still shows what is in memory. -/
theorem Mirrors.of_reopens (h : jar.Mirrors memory) (hreopens : jar.Reopens Entry.shown reopened) :
    reopened.Mirrors memory := by
  have hnames := hreopens.names_eq.trans h.names
  refine ⟨hnames, ?_, ?_⟩
  · intro name
    by_cases hname : name ∈ memory.names
    · obtain ⟨content, hcontent⟩ := MemoryArchive.exists_read_eq_ok hname
      rw [hcontent]
      exact hreopens.read_eq_ok h.replacesNamed ((h.read name).trans hcontent)
    · rw [MemoryArchive.read_eq_missing hname]
      exact hreopens.read_eq_missing (h.names ▸ hname)
  · intro name content hlookup
    rw [hreopens.replaced] at hlookup
    cases hlookup

end Jar

namespace SessionStep

theorem attempt_alike {α β : Type} [Archive α] [Archive β] {R : α → β → Prop} {archive : α}
    {archive' : β} {outcome : Except Fault α} {outcome' : Except Fault β} (h : R archive archive')
    (halike : Alike R outcome outcome') :
    (attempt archive outcome).1 = (attempt archive' outcome').1 ∧
      R (attempt archive outcome).2 (attempt archive' outcome').2 := by
  cases halike with
  | ok hnew => exact ⟨rfl, hnew⟩
  | error fault => exact ⟨rfl, h⟩

theorem perform_mirrors {jar : Jar} {memory : MemoryArchive} (h : jar.Mirrors memory)
    {step : SessionStep} (hkept : step = .reopen → Zip.Keeps Entry.shown jar.saved) :
    (perform Jar.reopen jar step).1 = (perform .ok memory step).1 ∧
      (perform Jar.reopen jar step).2.Mirrors (perform .ok memory step).2 := by
  have hnames : Archive.names jar = Archive.names memory := h.names
  have hread : ∀ name, Archive.read jar name = Archive.read memory name := h.read
  cases step with
  | names => exact ⟨congrArg SessionAnswer.names hnames, h⟩
  | classEntries =>
    refine ⟨?_, h⟩
    rw [perform, perform, Archive.classEntries, Archive.classEntries, hnames]
  | contains name => exact ⟨congrArg SessionAnswer.contains (h.contains_eq name), h⟩
  | read name => exact ⟨congrArg SessionAnswer.read (h.read name), h⟩
  | replace name data => exact attempt_alike h (Jar.simulates_mirrors.replace data h trivial)
  | scan config cancellation =>
    refine ⟨?_, h⟩
    rw [perform, perform, ArchiveScan.run_eq_of_read_eq hnames hread]
  | edit edits =>
    have hnamed : ∀ edit ∈ edits, True := fun _ _ => trivial
    obtain ⟨harchive, hresult, hwarnings⟩ :=
      Edit.applyToArchive_alike Jar.simulates_mirrors hnamed h
    refine ⟨?_, harchive⟩
    rw [perform, perform, hresult, hwarnings]
  | reopen =>
    obtain ⟨reopened, hreopens⟩ := Jar.exists_reopens (hkept rfl)
    have halike : Alike Jar.Mirrors jar.reopen (Except.ok memory) := by
      rw [Jar.reopen, hreopens.opened]
      exact .ok (h.of_reopens hreopens)
    exact attempt_alike h halike

theorem answers_mirrors {steps : List SessionStep} {jar : Jar} {memory : MemoryArchive}
    (h : jar.Mirrors memory) (hkept : Jar.WritesKept steps jar) :
    answers Jar.reopen steps jar = answers .ok steps memory := by
  induction steps generalizing jar memory with
  | nil => rfl
  | cons step steps ih =>
    obtain ⟨hstep, hrest⟩ := hkept
    obtain ⟨hanswer, hmirrors⟩ := perform_mirrors h hstep
    rw [answers, answers, hanswer, ih hmirrors hrest]

end SessionStep

namespace Jar

variable {jar : Jar} {memory : MemoryArchive} {entries : List (String × Bytes)}

theorem toBytes_built (entries : List (String × Bytes)) : build entries = Zip.write (built entries) :=
  rfl

theorem map_shown_built (h : ∀ entry ∈ entries, entry.1.toList.getLast? ≠ some '/') :
    (built entries).map Entry.shown =
      entries.map fun entry => (entry.1, (.ok entry.2 : Except ZipFault Bytes)) := by
  rw [built, List.map_map]
  apply List.map_congr_left
  intro entry hentry
  rw [Function.comp_apply, newEntry, if_neg (h entry hentry), Entry.shown, Entry.content_ofContent]
  rfl

theorem exists_mirrors (hdistinct : (entries.map (·.1)).Nodup)
    (hfiles : ∀ entry ∈ entries, entry.1.toList.getLast? ≠ some '/')
    (hbuilt : Zip.Keeps Entry.shown (built entries)) :
    ∃ jar, ofBytes (build entries) = .ok jar ∧ jar.Mirrors (MemoryArchive.ofList entries) := by
  obtain ⟨found, hread, hfound⟩ := hbuilt
  rw [map_shown_built hfiles] at hfound
  have hentries := MemoryArchive.entries_ofList hdistinct
  refine ⟨⟨found.toArray, []⟩, ?_, ?_, ?_, ?_⟩
  · rw [ofBytes, toBytes_built, hread]
  · have hnames := congrArg (List.map Prod.fst) hfound
    rw [List.map_map, List.map_map] at hnames
    rw [MemoryArchive.names, hentries]
    exact hnames
  · intro name
    have hcontent : (find? ⟨found.toArray, []⟩ name).map (·.content) =
        (entries.lookup name).map .ok := by
      rw [find?_eq, map_content_find?, hfound, lookup_reverse]
      · exact lookup_map_snd entries (fun _ => Except.ok) name
      · rw [List.map_map]
        exact hdistinct
    rw [read_eq_of_replaced_eq_nil rfl, hcontent, MemoryArchive.read, MemoryArchive.get?, hentries]
    cases entries.lookup name <;> rfl
  · intro name content hlookup
    cases hlookup

/-! ## Small sessions -/

/-- One jar on both sides, with these entries. -/
def HasEntries (entries : Array Entry) (jar jar' : Jar) : Prop := jar = jar' ∧ jar.entries = entries

theorem simulates_hasEntries (entries : Array Entry) :
    Simulates (fun _ => True) (HasEntries entries) where
  contains_eq := by
    rintro jar _ name ⟨rfl, _⟩ _
    rfl
  read_eq := by
    rintro jar _ name ⟨rfl, _⟩ _
    rfl
  replace := by
    rintro jar _ name data ⟨rfl, hentries⟩ _
    have hreplace : Archive.replace jar name data = jar.replace name data := rfl
    rw [hreplace, replace]
    split
    · exact .ok ⟨rfl, hentries⟩
    · exact .error (.entryMissing name)

/-- Whether what is in memory at each step of a session is small. -/
def staysSmall : List SessionStep → MemoryArchive → Bool
  | [], _ => true
  | step :: rest, memory =>
    (memory.entries.all fun entry => entry.2.length ≤ 1000) &&
      staysSmall rest (SessionStep.perform .ok memory step).2

theorem Mirrors.length_le (h : jar.Mirrors memory)
    (hsmall : ∀ entry ∈ memory.entries, entry.2.length ≤ 1000) (name : String) (data : Bytes)
    (hlookup : jar.replaced.lookup name = some data) : data.length ≤ 1000 := by
  have hread : jar.read name = .ok data := by
    rw [Jar.read, hlookup]
  rw [h.read, MemoryArchive.read_eq_ok_iff, MemoryArchive.get?_eq_some_iff] at hread
  exact hsmall (name, data) hread

theorem Small.of_entries_eq {other : Jar} (h : jar.Small) (hentries : other.entries = jar.entries) :
    other.Small := by
  obtain ⟨hall, hcount, hlast⟩ := h
  rw [← hentries] at hall hcount hlast
  exact ⟨hall, hcount, hlast⟩

theorem small_perform (hjar : jar.Small) (hsaved : (Jar.mk jar.saved.toArray []).Small)
    (step : SessionStep) : (SessionStep.perform reopen jar step).2.Small := by
  have hsame : HasEntries jar.entries jar jar := ⟨rfl, rfl⟩
  cases step with
  | names | classEntries | contains | read | scan => exact hjar
  | replace name data =>
    have halike : Alike (HasEntries jar.entries) (Archive.replace jar name data)
        (Archive.replace jar name data) :=
      (simulates_hasEntries jar.entries).replace data hsame trivial
    have hnext := (SessionStep.attempt_alike hsame halike).2
    exact hjar.of_entries_eq hnext.2
  | edit edits =>
    have hnamed : ∀ edit ∈ edits, True := fun _ _ => trivial
    have hnext := (Edit.applyToArchive_alike (simulates_hasEntries jar.entries) hnamed hsame).1
    exact hjar.of_entries_eq hnext.2
  | reopen =>
    have hread : Zip.read (Zip.write jar.saved) = .ok jar.saved := Zip.read_write hsaved.ordinary
    have hopened : jar.reopen = .ok ⟨jar.saved.toArray, []⟩ := by
      rw [reopen, ofBytes, toBytes_eq, hread]
    rw [SessionStep.perform, hopened]
    exact hsaved

theorem newEntry_name (name : String) (content : Bytes) : (newEntry name content).name = name := by
  rw [newEntry]
  split <;> rfl

theorem small_built (hnames : ∀ entry ∈ entries, (Text.Utf8.encode entry.1).length ≤ 1024)
    (hcontents : ∀ entry ∈ entries, entry.2.length ≤ 1000) (hcount : entries.length ≤ 1000)
    (hlast : ∀ last ∈ entries.getLast?,
      4 ≤ (Text.Utf8.encode last.1).length ∧ (Text.Utf8.encode last.1).length ≤ 11) :
    (Jar.mk (built entries).toArray []).Small := by
  constructor
  · intro entry hentry
    obtain ⟨item, hitem, rfl⟩ := List.mem_map.mp hentry
    have hname := hnames item hitem
    rw [newEntry]
    split
    · exact Entry.small_folder hname
    · exact Entry.small_ofContent hname (hcontents item hitem)
  · show (built entries).length ≤ 1000
    rw [built, List.length_map]
    exact hcount
  · intro last hmem
    change last ∈ (entries.map fun entry => newEntry entry.1 entry.2).getLast? at hmem
    rw [List.getLast?_map] at hmem
    obtain ⟨item, hitem, rfl⟩ := Option.map_eq_some_iff.mp hmem
    rw [Entry.nameBytes, newEntry_name]
    exact hlast item hitem

/-- A small jar whose session stays small is written to ordinary files. -/
theorem writesKept_of_staysSmall {steps : List SessionStep} (hjar : jar.Small)
    (hmirrors : jar.Mirrors memory) (hsmall : staysSmall steps memory = true) :
    WritesKept steps jar := by
  induction steps generalizing jar memory with
  | nil => trivial
  | cons step steps ih =>
    rw [staysSmall, Bool.and_eq_true] at hsmall
    obtain ⟨hall, hrest⟩ := hsmall
    have hlength : ∀ entry ∈ memory.entries, entry.2.length ≤ 1000 := by
      intro entry hentry
      exact of_decide_eq_true (List.all_eq_true.mp hall entry hentry)
    have hsaved := hjar.saved (hmirrors.length_le hlength)
    have hkept : step = .reopen → Zip.Keeps Entry.shown jar.saved :=
      fun _ => hsaved.ordinary.keeps Entry.shown
    have hnext := (SessionStep.perform_mirrors hmirrors hkept).2
    exact ⟨hkept, ih (small_perform hjar hsaved step) hnext hrest⟩

/-- A jar gives the answers that the entries it was made of give in memory. -/
theorem answers_eq_in_memory (hdistinct : (entries.map (·.1)).Nodup)
    (hfiles : ∀ entry ∈ entries, entry.1.toList.getLast? ≠ some '/')
    (hbuilt : Zip.Keeps Entry.shown (built entries)) :
    ∃ jar, ofBytes (build entries) = .ok jar ∧ ∀ steps, WritesKept steps jar →
      SessionStep.answers reopen steps jar =
        SessionStep.answers .ok steps (MemoryArchive.ofList entries) := by
  obtain ⟨jar, hopen, hmirrors⟩ := exists_mirrors hdistinct hfiles hbuilt
  exact ⟨jar, hopen, fun _ hkept => SessionStep.answers_mirrors hmirrors hkept⟩

def sessionEntries : List (String × Bytes) :=
  [("T.class", bareClass), ("notes.txt", [72, 105]), ("U.class", [202, 254])]

/-- A session in which edits stop midway and the jar is opened again before and after. -/
def sessionSteps : List SessionStep :=
  [.classEntries, .replace "missing" [1], .reopen, .read "missing", .scan {} .never,
    .edit [⟨"T.class", 1, "x"⟩, ⟨"U.class", 1, "y"⟩], .reopen, .read "T.class",
    .replace "notes.txt" [7], .contains "notes.txt", .reopen, .read "notes.txt", .names]

theorem answers_eq_in_memory_of_sessionSteps :
    Zip.Keeps Entry.shown (built sessionEntries) ∧
      ∃ jar, ofBytes (build sessionEntries) = .ok jar ∧ WritesKept sessionSteps jar ∧
        SessionStep.answers reopen sessionSteps jar =
          SessionStep.answers .ok sessionSteps (MemoryArchive.ofList sessionEntries) := by
  have hdistinct : (sessionEntries.map (·.1)).Nodup := by decide
  have hfiles : ∀ entry ∈ sessionEntries, entry.1.toList.getLast? ≠ some '/' := by decide
  have hsmall : (Jar.mk (built sessionEntries).toArray []).Small :=
    small_built (by decide +kernel) (by decide) (by decide) (by decide +kernel)
  have hkeeps : Zip.Keeps Entry.shown (built sessionEntries) := hsmall.ordinary.keeps Entry.shown
  have hread : Zip.read (build sessionEntries) = .ok (built sessionEntries) :=
    Zip.read_write hsmall.ordinary
  have hopened : ofBytes (build sessionEntries) = .ok ⟨(built sessionEntries).toArray, []⟩ := by
    rw [ofBytes, hread]
  have hkept {jar : Jar} (hopen : ofBytes (build sessionEntries) = .ok jar)
      (hmirrors : jar.Mirrors (MemoryArchive.ofList sessionEntries)) :
      WritesKept sessionSteps jar := by
    obtain rfl := Except.ok.inj (hopened.symm.trans hopen)
    exact writesKept_of_staysSmall hsmall hmirrors (by decide +kernel)
  obtain ⟨mirroring, hmirroring, hmirrors⟩ := exists_mirrors hdistinct hfiles hkeeps
  obtain ⟨jar, hopen, hanswers⟩ := answers_eq_in_memory hdistinct hfiles hkeeps
  obtain rfl : mirroring = jar := Except.ok.inj (hmirroring.symm.trans hopen)
  have hsteps := hkept hopen hmirrors
  exact ⟨hkeeps, mirroring, hopen, hsteps, hanswers sessionSteps hsteps⟩

end Jar

end JarText
