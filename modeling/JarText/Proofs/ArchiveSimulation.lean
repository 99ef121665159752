import Mathlib.Data.List.Find
import JarText.Edit
import JarText.Proofs.Outcomes
import JarText.Scan.ArchiveScan

/-!
# Archives in step

Two archives that cannot be told apart by looking, and that stay so when an entry is replaced in
both, cannot be told apart by a scan or by edits either. Whatever is done to one of them may be
followed on the other.
-/

set_option autoImplicit false

namespace JarText

/-- Related archives answer alike on these names and stay related when an entry is replaced. -/
structure Simulates {α β : Type} [Archive α] [Archive β] (Named : String → Prop)
    (R : α → β → Prop) : Prop where
  contains_eq : ∀ {archive archive' name}, R archive archive' → Named name →
    Archive.contains archive name = Archive.contains archive' name
  read_eq : ∀ {archive archive' name}, R archive archive' → Named name →
    Archive.read archive name = Archive.read archive' name
  replace : ∀ {archive archive' name} (data : Bytes), R archive archive' → Named name →
    Alike R (Archive.replace archive name data) (Archive.replace archive' name data)

variable {α β : Type} [Archive α] [Archive β] {Named : String → Prop} {R : α → β → Prop}
  {archive : α} {archive' : β}

namespace Edit

variable {edits : List Edit} {owner : String}

theorem applyToOwner_alike (h : Simulates Named R) (hR : R archive archive') (howner : Named owner)
    (group : List Edit) (said : List String) :
    Alike R (applyToOwner archive owner group said).1 (applyToOwner archive' owner group said).1 ∧
      (applyToOwner archive owner group said).2 = (applyToOwner archive' owner group said).2 := by
  unfold applyToOwner
  rw [h.read_eq hR howner]
  cases Archive.read archive' owner with
  | error fault => exact ⟨.error fault, rfl⟩
  | ok data =>
    cases hread : ClassFile.read data with
    | error fault =>
      simp only [hread, and_true]
      exact .error fault
    | ok file =>
      simp only [hread]
      obtain ⟨result, said', happly⟩ : ∃ result said',
          applyAll file group said = (result, said') := ⟨_, _, rfl⟩
      rw [happly]
      cases result with
      | error fault => exact ⟨.error fault, rfl⟩
      | ok file' => exact ⟨h.replace file'.write hR howner, rfl⟩

theorem applyToOwners_alike (h : Simulates Named R) {owners : List String}
    (howners : ∀ owner ∈ owners, Named owner) (hR : R archive archive') (summary : EditSummary)
    (said : List String) :
    R (applyToOwners edits owners archive summary said).archive
        (applyToOwners edits owners archive' summary said).archive ∧
      (applyToOwners edits owners archive summary said).result =
        (applyToOwners edits owners archive' summary said).result ∧
      (applyToOwners edits owners archive summary said).warnings =
        (applyToOwners edits owners archive' summary said).warnings := by
  induction owners generalizing archive archive' summary said with
  | nil => exact ⟨hR, rfl, rfl⟩
  | cons owner rest ih =>
    obtain ⟨howner, hrest⟩ := List.forall_mem_cons.mp howners
    obtain ⟨halike, hsaid⟩ := applyToOwner_alike h hR howner (ofOwner edits owner) said
    simp only [applyToOwners]
    obtain ⟨result, said', hfirst⟩ : ∃ result said',
        applyToOwner archive owner (ofOwner edits owner) said = (result, said') := ⟨_, _, rfl⟩
    obtain ⟨result', said'', hsecond⟩ : ∃ result said',
        applyToOwner archive' owner (ofOwner edits owner) said = (result, said') := ⟨_, _, rfl⟩
    rw [hfirst, hsecond] at halike hsaid
    obtain rfl : said' = said'' := hsaid
    rw [hfirst, hsecond]
    cases halike with
    | ok hnew => exact ih hrest hnew _ _
    | error fault => exact ⟨hR, rfl, rfl⟩

/-- Edits of related archives end alike. -/
theorem applyToArchive_alike (h : Simulates Named R) (hedits : ∀ edit ∈ edits, Named edit.entry)
    (hR : R archive archive') :
    R (applyToArchive archive edits).archive (applyToArchive archive' edits).archive ∧
      (applyToArchive archive edits).result = (applyToArchive archive' edits).result ∧
      (applyToArchive archive edits).warnings = (applyToArchive archive' edits).warnings := by
  have howners : ∀ owner ∈ owners edits, Named owner := by
    intro owner hmem
    rw [owners, List.mem_eraseDups] at hmem
    obtain ⟨edit, hedit, rfl⟩ := List.mem_map.mp hmem
    exact hedits edit hedit
  have hfind : (owners edits).find? (fun owner => !Archive.contains archive owner) =
      (owners edits).find? (fun owner => !Archive.contains archive' owner) := by
    apply List.find?_congr
    intro owner hmem
    rw [h.contains_eq hR (howners owner hmem)]
  unfold applyToArchive
  simp only [hfind]
  cases (owners edits).find? fun owner => !Archive.contains archive' owner with
  | some missing => exact ⟨hR, rfl, rfl⟩
  | none => exact applyToOwners_alike h howners hR {} []

end Edit

namespace ArchiveScan

/-- A scan sees no more of an archive than its names and what is read under them. -/
theorem run_eq_of_read_eq (hnames : Archive.names archive = Archive.names archive')
    (hread : ∀ name, Archive.read archive name = Archive.read archive' name)
    (config : RunConfig) (cancellation : Cancellation) :
    run config cancellation archive = run config cancellation archive' := by
  have hentries : Archive.classEntries archive = Archive.classEntries archive' := by
    rw [Archive.classEntries, Archive.classEntries, hnames]
  have hscan (entry : String) : scanEntry config.scan archive entry =
      scanEntry config.scan archive' entry := by
    rw [scanEntry, scanEntry, hread]
  have hvisit (entries : List String) (start : Run) :
      visit config cancellation archive entries start =
        visit config cancellation archive' entries start := by
    induction entries generalizing start with
    | nil => rfl
    | cons entry rest ih =>
      rw [visit, visit, hscan]
      split
      · rfl
      · exact ih _
  rw [run, run, hentries, hvisit]

end ArchiveScan

end JarText
