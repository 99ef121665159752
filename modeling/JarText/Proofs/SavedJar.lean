import JarText.Jar
import JarText.Proofs.ArchiveSimulation
import JarText.Proofs.Lists
import JarText.Proofs.SmallFiles
import JarText.Proofs.CompressedContent

/-!
# Saved jars

A saved jar has an entry for each entry of the jar, under the same name. What was put in place of an
entry is compressed anew; every other entry is copied with its data as they are. So whatever calls
went before, what can be read from the jar can be read from the file that is saved, and saving that
one again changes nothing.
-/

set_option autoImplicit false

namespace JarText

/-! ## Calls -/

/-- What is asked of an archive that may change it. -/
inductive ArchiveCall where
  | replace (name : String) (data : Bytes)
  | edit (edits : List Edit)
  /-- Writes the archive to a file. -/
  | save
  deriving Repr, DecidableEq

/-- An archive with a record of what was put in place of its entries, the latest first. -/
structure Recorded (α : Type) where
  archive : α
  written : List (String × Bytes) := []
  deriving Repr, DecidableEq

variable {α β : Type} [Archive α] [Archive β]

instance : Archive (Recorded α) where
  names recorded := Archive.names recorded.archive
  read recorded := Archive.read recorded.archive
  replace recorded name data :=
    match Archive.replace recorded.archive name data with
    | .ok archive => .ok ⟨archive, (name, data) :: recorded.written⟩
    | .error fault => .error fault
  contains recorded := Archive.contains recorded.archive

theorem Recorded.replace_eq (recorded : Recorded α) (name : String) (data : Bytes) :
    Archive.replace recorded name data =
      match Archive.replace recorded.archive name data with
      | .ok archive => .ok ⟨archive, (name, data) :: recorded.written⟩
      | .error fault => .error fault := rfl

namespace ArchiveCall

/-- The archive after a call. One that fails midway leaves what it had done. -/
def perform (archive : α) : ArchiveCall → α
  | replace name data => (Archive.replace archive name data).toOption.getD archive
  | edit edits => (Edit.applyToArchive archive edits).archive
  | save => archive

def performAll (archive : α) (calls : List ArchiveCall) : α := calls.foldl perform archive

variable {R : α → β → Prop} {archive : α} {archive' : β}

theorem perform_alike (h : Simulates (fun _ => True) R) (hR : R archive archive')
    (call : ArchiveCall) : R (perform archive call) (perform archive' call) := by
  cases call with
  | replace name data =>
    have halike : Alike R (Archive.replace archive name data) (Archive.replace archive' name data) :=
      h.replace data hR trivial
    rw [perform, perform]
    generalize Archive.replace archive name data = outcome at halike ⊢
    generalize Archive.replace archive' name data = outcome' at halike ⊢
    cases halike with
    | ok hnew => exact hnew
    | error fault => exact hR
  | edit edits => exact (Edit.applyToArchive_alike h (fun _ _ => trivial) hR).1
  | save => exact hR

theorem performAll_alike (h : Simulates (fun _ => True) R) (hR : R archive archive')
    (calls : List ArchiveCall) : R (performAll archive calls) (performAll archive' calls) := by
  induction calls generalizing archive archive' with
  | nil => exact hR
  | cons call calls ih => exact ih (perform_alike h hR call)

end ArchiveCall

namespace Zip.Entry

def shown (entry : Entry) : String × Except ZipFault Bytes := (entry.name, entry.content)

/-- What is kept of an entry when it is copied: its name, and how its data stand for its content. -/
def packed (entry : Entry) : String × UInt16 × UInt32 × Bool × Bytes :=
  (entry.name, entry.method, entry.checksum, entry.locked, entry.data)

theorem shown_eq_of_packed_eq {entry other : Entry} (h : entry.packed = other.packed) :
    entry.shown = other.shown := by
  simp only [packed, Prod.mk.injEq] at h
  obtain ⟨hname, hmethod, hchecksum, hlocked, hdata⟩ := h
  rw [shown, shown, content, content, hname, hmethod, hchecksum, hlocked, hdata]

theorem packed_copied (entry : Entry) :
    entry.copied.packed = (entry.name, entry.method, entry.checksum, false, entry.data) := rfl

theorem packed_copied_eq_of_packed_eq {entry other : Entry} (h : entry.packed = other.packed) :
    entry.copied.packed = other.copied.packed := by
  simp only [packed, Prod.mk.injEq] at h
  obtain ⟨hname, hmethod, hchecksum, -, hdata⟩ := h
  rw [packed_copied, packed_copied, hname, hmethod, hchecksum, hdata]

end Zip.Entry

namespace Jar

open Zip (Entry)

variable {jar start : Jar} {name : String}

theorem contains_iff : jar.contains name = true ↔ name ∈ jar.names := by
  rw [contains, names, ← Array.any_toList, List.any_eq_true, List.mem_map]
  constructor
  · rintro ⟨entry, hentry, hname⟩
    exact ⟨entry, hentry, beq_iff_eq.mp hname⟩
  · rintro ⟨entry, hentry, hname⟩
    exact ⟨entry, hentry, beq_iff_eq.mpr hname⟩

/-- A jar under way: it has the entries that it had at the start, and in place of some of them what
was last written there. -/
structure Tracks (start : Jar) (recorded : Recorded Jar) (jar : Jar) : Prop where
  archive : recorded.archive = jar
  entries : jar.entries = start.entries
  lookup : ∀ name, jar.replaced.lookup name = recorded.written.lookup name
  named : ∀ item ∈ recorded.written, item.1 ∈ start.names

theorem simulates_tracks (start : Jar) : Simulates (fun _ => True) (Tracks start) where
  contains_eq := by
    rintro recorded jar name ⟨rfl, -, -, -⟩ -
    rfl
  read_eq := by
    rintro recorded jar name ⟨rfl, -, -, -⟩ -
    rfl
  replace := by
    rintro recorded jar name data h -
    obtain ⟨rfl, hentries, hlookup, hnamed⟩ := h
    have hreplace : Archive.replace recorded.archive name data =
      recorded.archive.replace name data := rfl
    rw [Recorded.replace_eq, hreplace, replace]
    by_cases hcontains : recorded.archive.contains name = true
    · rw [if_pos hcontains]
      refine .ok ⟨rfl, hentries, ?_, ?_⟩
      · intro other
        rw [lookup_put, hlookup, List.lookup_cons]
        by_cases hother : other = name
        · rw [if_pos hother, beq_iff_eq.mpr hother]
        · rw [if_neg hother, beq_eq_false_iff_ne.mpr hother]
      · have hmem := contains_iff.mp hcontains
        rw [names, hentries] at hmem
        exact List.forall_mem_cons.mpr ⟨hmem, hnamed⟩
    · rw [if_neg hcontains]
      exact .error _

theorem tracks_performAll (hstart : start.replaced = []) (calls : List ArchiveCall) :
    Tracks start (ArchiveCall.performAll ⟨start, []⟩ calls) (ArchiveCall.performAll start calls) := by
  apply ArchiveCall.performAll_alike (simulates_tracks start)
  refine ⟨rfl, rfl, ?_, List.forall_mem_nil _⟩
  intro name
  rw [hstart]

/-! ## The file that is saved -/

/-- An entry in the file that is saved. -/
def savedAs (jar : Jar) (entry : Entry) : Entry :=
  match jar.replaced.lookup entry.name with
  | some data => .ofContent entry.name data
  | none => entry.copied

def saved (jar : Jar) : List Entry := jar.entries.toList.map jar.savedAs

theorem toBytes_eq (jar : Jar) : jar.toBytes = Zip.write jar.saved := by
  rw [toBytes, saved]
  congr 1
  apply List.map_congr_left
  intro entry _
  rw [savedEntry, lookup_map_snd, savedAs]
  cases jar.replaced.lookup entry.name <;> rfl

@[simp] theorem savedAs_name (jar : Jar) (entry : Entry) : (jar.savedAs entry).name = entry.name := by
  rw [savedAs]
  split <;> rfl

theorem map_name_saved (jar : Jar) : jar.saved.map (·.name) = jar.names := by
  rw [saved, List.map_map, names]
  apply List.map_congr_left
  intro entry _
  exact jar.savedAs_name entry

/-! ## Reading -/

theorem find?_eq (jar : Jar) (name : String) :
    jar.find? name = jar.entries.toList.reverse.find? (·.name == name) := by
  rw [find?, Array.findRev?_eq_find?_reverse, ← Array.find?_toList, Array.toList_reverse]

/-- The content of the last entry of a name is seen from what the entries show. -/
theorem map_content_find? (entries : List Entry) (name : String) :
    (entries.reverse.find? (·.name == name)).map (·.content) =
      (entries.map Entry.shown).reverse.lookup name := by
  rw [← map_snd_find?, ← List.map_reverse, List.find?_map, Option.map_map]
  rfl

theorem read_eq_of_replaced_eq_nil (h : jar.replaced = []) (name : String) :
    jar.read name =
      match (jar.find? name).map (·.content) with
      | none => .error (.entryMissing name)
      | some (.ok content) => .ok content
      | some (.error fault) => .error (.container fault) := by
  rw [read, h]
  dsimp only [List.lookup_nil]
  cases jar.find? name with
  | none => rfl
  | some entry =>
    dsimp only [Option.map_some]
    cases entry.content <;> rfl

theorem content_savedAs_of_lookup {entry : Entry} {data : Bytes}
    (h : jar.replaced.lookup entry.name = some data) : (jar.savedAs entry).content = .ok data := by
  rw [savedAs, h]
  exact Entry.content_ofContent entry.name data

/-- The last entry of a name in the file that is saved. -/
theorem find?_saved (jar : Jar) (name : String) :
    jar.saved.reverse.find? (·.name == name) = (jar.find? name).map jar.savedAs := by
  rw [saved, ← List.map_reverse, List.find?_map, find?_eq]
  congr 2
  funext entry
  rw [Function.comp_apply, savedAs_name]

/-- The jar that is read back from the file that is saved. -/
structure Reopens {γ : Type} (view : Entry → γ) (jar reopened : Jar) : Prop where
  opened : ofBytes jar.toBytes = .ok reopened
  replaced : reopened.replaced = []
  entries : reopened.entries.toList.map view = jar.saved.map view

theorem exists_reopens {γ : Type} {view : Entry → γ} (h : Zip.Keeps view jar.saved) :
    ∃ reopened, jar.Reopens view reopened := by
  obtain ⟨found, hread, hfound⟩ := h
  refine ⟨⟨found.toArray, []⟩, ?_, rfl, hfound⟩
  rw [ofBytes, toBytes_eq, hread]

variable {reopened : Jar}

theorem Reopens.names_eq (h : jar.Reopens Entry.shown reopened) : reopened.names = jar.names := by
  have hnames := congrArg (List.map Prod.fst) h.entries
  rw [List.map_map, List.map_map] at hnames
  exact hnames.trans jar.map_name_saved

theorem Reopens.content_find? (h : jar.Reopens Entry.shown reopened) (name : String) :
    (reopened.find? name).map (·.content) =
      (jar.find? name).map fun entry => (jar.savedAs entry).content := by
  rw [find?_eq reopened, map_content_find?, h.entries, ← map_content_find?, find?_saved,
    Option.map_map]
  rfl

theorem find?_eq_none_iff : jar.find? name = none ↔ name ∉ jar.names := by
  rw [find?_eq, List.find?_eq_none, names, List.mem_map]
  constructor
  · rintro h ⟨entry, hentry, hname⟩
    exact h entry (List.mem_reverse.mpr hentry) (beq_iff_eq.mpr hname)
  · intro h entry hentry hname
    exact h ⟨entry, List.mem_reverse.mp hentry, beq_iff_eq.mp hname⟩

theorem name_of_find? {entry : Entry} (h : jar.find? name = some entry) : entry.name = name := by
  rw [find?_eq] at h
  have hname := List.find?_some h
  exact beq_iff_eq.mp hname

def ReplacesNamed (jar : Jar) : Prop :=
  ∀ name data, jar.replaced.lookup name = some data → name ∈ jar.names

/-- What can be read from a jar can be read from the file that is saved. -/
theorem Reopens.read_eq_ok (h : jar.Reopens Entry.shown reopened)
    (hnamed : jar.ReplacesNamed) {content : Bytes}
    (hread : jar.read name = .ok content) : reopened.read name = .ok content := by
  rw [read_eq_of_replaced_eq_nil h.replaced, h.content_find?]
  rw [read] at hread
  cases hfind : jar.find? name with
  | none =>
    have hnot := find?_eq_none_iff.mp hfind
    cases hlookup : jar.replaced.lookup name with
    | some data => exact absurd (hnamed name data hlookup) hnot
    | none =>
      rw [hlookup, hfind] at hread
      cases hread
  | some entry =>
    have hname := name_of_find? hfind
    have hcontent : (jar.savedAs entry).content = .ok content := by
      cases hlookup : jar.replaced.lookup name with
      | some data =>
        rw [hlookup] at hread
        obtain rfl : data = content := Except.ok.inj hread
        exact content_savedAs_of_lookup (hname ▸ hlookup)
      | none =>
        rw [hlookup, hfind] at hread
        dsimp only at hread
        rw [savedAs, hname, hlookup]
        cases hentry : entry.content with
        | error fault =>
          rw [hentry] at hread
          cases hread
        | ok found =>
          rw [hentry] at hread
          obtain rfl : found = content := Except.ok.inj hread
          exact Entry.content_copied hentry
    rw [Option.map_some, hcontent]

theorem Reopens.read_eq_missing (h : jar.Reopens Entry.shown reopened) (hname : name ∉ jar.names) :
    reopened.read name = .error (.entryMissing name) := by
  rw [read_eq_of_replaced_eq_nil h.replaced, h.content_find?, find?_eq_none_iff.mpr hname]
  rfl

/-! ## Data -/

theorem locked_savedAs (jar : Jar) (entry : Entry) : (jar.savedAs entry).locked = false := by
  rw [savedAs]
  split <;> rfl

theorem packed_copied_savedAs (jar : Jar) (entry : Entry) :
    (jar.savedAs entry).copied.packed = (jar.savedAs entry).packed := by
  rw [Entry.packed_copied, Entry.packed, locked_savedAs]

variable {reopened : Jar}

theorem Reopens.shown (h : jar.Reopens Entry.packed reopened) : jar.Reopens Entry.shown reopened :=
  ⟨h.opened, h.replaced, map_eq_map_of_imp Entry.shown_eq_of_packed_eq h.entries⟩

/-- Saving the file that was saved changes nothing. -/
theorem Reopens.saved_again (h : jar.Reopens Entry.packed reopened) :
    reopened.saved.map Entry.packed = jar.saved.map Entry.packed := by
  have hcopies : reopened.saved = reopened.entries.toList.map Entry.copied := by
    apply List.map_congr_left
    intro entry _
    rw [savedAs, h.replaced]
    rfl
  have hagain : reopened.entries.toList.map (fun entry => entry.copied.packed) =
      jar.saved.map fun entry => entry.copied.packed :=
    map_eq_map_of_imp Entry.packed_copied_eq_of_packed_eq h.entries
  rw [hcopies, List.map_map]
  refine hagain.trans ?_
  rw [saved, List.map_map, List.map_map]
  apply List.map_congr_left
  intro entry _
  exact jar.packed_copied_savedAs entry

/-- An entry of a saved jar beside the entry that it is made of. `written` has what was put in place
of entries, the latest first. -/
structure SavedFrom (written : List (String × Bytes)) (before after : Entry) : Prop where
  name : after.name = before.name
  kept : written.lookup before.name = none →
    after.method = before.method ∧ after.checksum = before.checksum ∧ after.data = before.data
  rewritten : ∀ content, written.lookup before.name = some content →
    after.method = Zip.deflatedMethod ∧ after.content = .ok content

theorem savedFrom_of_packed_eq {written : List (String × Bytes)} {before after : Entry}
    (hlookup : ∀ name, jar.replaced.lookup name = written.lookup name)
    (h : after.packed = (jar.savedAs before).packed) : SavedFrom written before after := by
  have hshown := congrArg Prod.snd (Entry.shown_eq_of_packed_eq h)
  simp only [Entry.packed, Prod.mk.injEq] at h
  obtain ⟨hname, hmethod, hchecksum, -, hdata⟩ := h
  constructor
  · rw [hname, savedAs_name]
  · intro hnone
    have hcopied : jar.savedAs before = before.copied := by
      rw [savedAs, hlookup, hnone]
    rw [hcopied] at hmethod hchecksum hdata
    exact ⟨hmethod, hchecksum, hdata⟩
  · intro content hsome
    have hnew : jar.savedAs before = .ofContent before.name content := by
      rw [savedAs, hlookup, hsome]
    rw [hnew] at hmethod hshown
    exact ⟨hmethod, hshown.trans (Entry.content_ofContent before.name content)⟩

theorem forall₂_savedFrom {written : List (String × Bytes)}
    (hlookup : ∀ name, jar.replaced.lookup name = written.lookup name)
    (h : jar.Reopens Entry.packed reopened) :
    List.Forall₂ (SavedFrom written) jar.entries.toList reopened.entries.toList := by
  have hpairs : List.Forall₂ Eq (jar.entries.toList.map fun entry => (jar.savedAs entry).packed)
      (reopened.entries.toList.map Entry.packed) := by
    rw [List.forall₂_eq_eq_eq, h.entries, saved, List.map_map]
    rfl
  rw [List.forall₂_map_left_iff, List.forall₂_map_right_iff] at hpairs
  exact hpairs.imp fun before after heq => savedFrom_of_packed_eq hlookup heq.symm

theorem Tracks.replacesNamed {recorded : Recorded Jar} (h : Tracks start recorded jar) :
    jar.ReplacesNamed := by
  intro name data hlookup
  rw [h.lookup] at hlookup
  rw [names, h.entries]
  exact h.named (name, data) (mem_of_lookup_eq_some hlookup)

theorem replaced_of_ofBytes {bytes : Bytes} (h : ofBytes bytes = .ok jar) : jar.replaced = [] := by
  rw [ofBytes] at h
  split at h
  · obtain rfl := Except.ok.inj h
    rfl
  · cases h

/-- Whatever was asked of a jar, the file that is saved has its entries in order: what was not
written is kept as it is, what was written reads as what was written last, and what could be read
from the jar is read from the file. Saving changes neither the jar nor a file that was saved. -/
theorem saved_after_calls {bytes : Bytes} (hopen : ofBytes bytes = .ok jar)
    (calls : List ArchiveCall)
    (hkeeps : Zip.Keeps Entry.packed (ArchiveCall.performAll jar calls).saved) :
    ∃ reopened, ofBytes (ArchiveCall.performAll jar calls).toBytes = .ok reopened ∧
      (ArchiveCall.performAll jar calls).names = jar.names ∧ reopened.names = jar.names ∧
      List.Forall₂ (SavedFrom (ArchiveCall.performAll (Recorded.mk jar []) calls).written)
        jar.entries.toList reopened.entries.toList ∧
      (∀ name content, (ArchiveCall.performAll jar calls).read name = .ok content →
        reopened.read name = .ok content) ∧
      ArchiveCall.performAll jar (calls ++ [.save]) = ArchiveCall.performAll jar calls ∧
      reopened.saved.map Entry.packed =
        (ArchiveCall.performAll jar calls).saved.map Entry.packed := by
  have htracks := tracks_performAll (replaced_of_ofBytes hopen) calls
  obtain ⟨reopened, hreopens⟩ := exists_reopens hkeeps
  have hnames : (ArchiveCall.performAll jar calls).names = jar.names := by
    rw [names, htracks.entries, names]
  refine ⟨reopened, hreopens.opened, hnames, ?_, ?_, ?_, ?_, hreopens.saved_again⟩
  · exact hreopens.shown.names_eq.trans hnames
  · rw [← htracks.entries]
    exact forall₂_savedFrom htracks.lookup hreopens
  · intro name content hread
    exact hreopens.shown.read_eq_ok htracks.replacesNamed hread
  · exact List.foldl_append ..

/-! ## Small jars -/

/-- A jar of no more than a thousand small entries. -/
structure Small (jar : Jar) : Prop where
  entries : ∀ entry ∈ jar.entries.toList, entry.Small
  count : jar.entries.toList.length ≤ 1000
  last : Zip.CommonLast jar.entries.toList

theorem Small.saved (h : jar.Small)
    (hreplaced : ∀ name data, jar.replaced.lookup name = some data → data.length ≤ 1000) :
    (Jar.mk jar.saved.toArray []).Small := by
  constructor
  · intro entry hentry
    obtain ⟨before, hbefore, rfl⟩ := List.mem_map.mp hentry
    have hsmall := h.entries before hbefore
    rw [savedAs]
    split
    · rename_i data hlookup
      exact Entry.small_ofContent hsmall.1 (hreplaced before.name data hlookup)
    · exact hsmall.copied
  · show jar.saved.length ≤ 1000
    rw [Jar.saved, List.length_map]
    exact h.count
  · intro last hmem
    change last ∈ (jar.entries.toList.map jar.savedAs).getLast? at hmem
    rw [List.getLast?_map] at hmem
    obtain ⟨before, hbefore, rfl⟩ := Option.map_eq_some_iff.mp hmem
    rw [Entry.nameBytes, savedAs_name]
    exact h.last before hbefore

theorem Small.ordinary (h : jar.Small) : Zip.Ordinary jar.entries.toList :=
  Zip.ordinary_of_small h.entries h.count h.last

/-- A class with a text and nothing else. -/
def bareClass : Bytes :=
  [202, 254, 186, 190, 0, 0, 0, 52, 0, 2, 1, 0, 1, 65, 0, 0, 0, 1, 0, 0, 0, 0, 0, 0, 0, 0, 0, 0]

/-- Entries of all kinds: stored, in a repeated name, compressed, a folder, and two classes of which
the second cannot be read. -/
def oddEntries : List Entry :=
  [storedEntry "a.txt" [65], storedEntry "a.txt" [65, 66], .folder "dir/",
    { Entry.folder "b.bin" with
      method := Zip.deflatedMethod, checksum := Zip.checksum [7], packedSize := 6, size := 1
      data := [1, 1, 0, 254, 255, 7] },
    storedEntry "T.class" bareClass, storedEntry "U.class" [202, 254]]
where
  storedEntry (name : String) (content : Bytes) : Entry :=
    { Entry.folder name with
      checksum := Zip.checksum content, packedSize := content.length, size := content.length
      data := content }

def oddJar : Jar := ⟨oddEntries.toArray, []⟩

/-- Edits that stop at the second class, between calls that fail and calls that do not. -/
def oddCalls : List ArchiveCall :=
  [.replace "missing" [1], .replace "a.txt" [9], .edit [⟨"T.class", 1, "x"⟩, ⟨"U.class", 1, "y"⟩],
    .save, .replace "a.txt" [8, 8]]

theorem saved_oddJar_after_calls :
    ofBytes (Zip.write oddEntries) = .ok oddJar ∧
      Zip.Keeps Entry.packed (ArchiveCall.performAll oddJar oddCalls).saved ∧
      ((ArchiveCall.performAll (Recorded.mk oddJar []) oddCalls).written.map (·.1) =
        ["a.txt", "T.class", "a.txt"]) ∧
      ∃ reopened, ofBytes (ArchiveCall.performAll oddJar oddCalls).toBytes = .ok reopened ∧
        reopened.names = ["a.txt", "a.txt", "dir/", "b.bin", "T.class", "U.class"] ∧
        reopened.read "a.txt" = .ok [8, 8] ∧ reopened.read "b.bin" = .ok [7] ∧
        reopened.read "U.class" = .ok [202, 254] := by
  have hsmall : oddJar.Small := ⟨by decide +kernel, by decide, by decide +kernel⟩
  have hopen : ofBytes (Zip.write oddEntries) = .ok oddJar := by
    have hread : Zip.read (Zip.write oddEntries) = .ok oddEntries := Zip.read_write hsmall.ordinary
    rw [ofBytes, hread]
    rfl
  have hentries := (tracks_performAll (replaced_of_ofBytes hopen) oddCalls).entries
  have hsmall' : (ArchiveCall.performAll oddJar oddCalls).Small := by
    obtain ⟨hall, hcount, hlast⟩ := hsmall
    rw [← hentries] at hall hcount hlast
    exact ⟨hall, hcount, hlast⟩
  have hcontents : ∀ item ∈ (ArchiveCall.performAll oddJar oddCalls).replaced,
      item.2.length ≤ 1000 := by
    decide +kernel
  have hkeeps : Zip.Keeps Entry.packed (ArchiveCall.performAll oddJar oddCalls).saved := by
    refine (hsmall'.saved ?_).ordinary.keeps Entry.packed
    intro name data hlookup
    exact hcontents (name, data) (mem_of_lookup_eq_some hlookup)
  obtain ⟨reopened, hreopened, _, hnames, _, hread, _⟩ := saved_after_calls hopen oddCalls hkeeps
  refine ⟨hopen, hkeeps, by decide +kernel, reopened, hreopened, hnames.trans (by decide), ?_, ?_, ?_⟩
  · exact hread "a.txt" [8, 8] (by decide +kernel)
  · exact hread "b.bin" [7] (by decide +kernel)
  · exact hread "U.class" [202, 254] (by decide +kernel)

end Jar

end JarText
