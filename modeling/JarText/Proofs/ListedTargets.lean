import JarText.Proofs.FirstLoads
import JarText.Proofs.RunTrace

/-!
# The places of listed texts

A scan of a class lists each of its texts once, and a run visits each entry once if no two have one
name. So no two strings of a report have the same place, however they are filtered.
-/

set_option autoImplicit false

namespace JarText

def FoundString.place (found : FoundString) : String × UInt16 := (found.entry, found.textIndex)

theorem ClassScan.nodup_map_textIndex {config : ScanConfig} {entry : String} {data : Bytes}
    {result : ClassScan} (h : scan config entry data = .ok result) :
    (result.strings.map (·.textIndex)).Nodup := by
  obtain ⟨file, parts, _, hcollects⟩ := collects_of_scan h
  obtain ⟨seen', hfinds⟩ := hcollects.finds
  have hindices : result.strings.map (·.textIndex) =
      (parts.flatten.map (·.textIndex)).eraseDups := by
    rw [← map_textIndex_firstLoads, ← freshLoads_empty]
    exact (map_textIndex_eq hfinds.yields).symm
  rw [hindices]
  exact nodup_eraseDups _

namespace ArchiveScan

variable {α : Type} [Archive α] {archive : α} {config : ScanConfig}

theorem entry_of_mem_outcomeOf {entry : String} {found : FoundString}
    (h : found ∈ (outcomeOf config archive entry).strings) : found.entry = entry := by
  obtain ⟨scan, hscan, hfound⟩ := mem_strings_outcomeOf_iff.mp h
  obtain ⟨data, _, hscan⟩ := except_bind_eq_ok_iff.mp hscan
  obtain ⟨file, load, _, hyields⟩ := ClassScan.exists_load_of_mem_strings hscan hfound
  exact hyields.entry_eq

theorem nodup_place_outcomeOf (entry : String) :
    ((outcomeOf config archive entry).strings.map FoundString.place).Nodup := by
  unfold outcomeOf EntryOutcome.strings
  cases hscan : scanEntry config archive entry with
  | error fault => exact List.nodup_nil
  | ok scan =>
    obtain ⟨data, _, hscan⟩ := except_bind_eq_ok_iff.mp hscan
    have hindices : (scan.strings.map fun found => found.place.2).Nodup :=
      ClassScan.nodup_map_textIndex hscan
    rw [← Function.comp_def, ← List.map_map] at hindices
    exact hindices.of_map

theorem map_place_visits (config : RunConfig) (archive : α) :
    ((visits config archive).flatMap (·.outcome.strings)).map FoundString.place =
      (outcomes config.scan archive).flatMap (·.strings.map FoundString.place) := by
  have hplaces (strings : List FoundString) : strings.map FoundString.place =
      (strings.map FoundString.unnumbered).map FoundString.place := by
    rw [List.map_map]
    rfl
  have hvisits := congrArg (List.flatMap (List.map FoundString.place))
    (map_unnumbered_visitsFrom config.interval (Archive.classEntries archive).length 0 0
      (outcomes config.scan archive))
  rw [List.flatMap_map, List.flatMap_map] at hvisits
  simp only [← hplaces] at hvisits
  rw [List.map_flatMap]
  exact hvisits

/-- No two strings of a report have one place. -/
theorem nodup_place_strings (hnames : (Archive.names archive).Nodup) (config : RunConfig) :
    ((run config .never archive).report.strings.map FoundString.place).Nodup := by
  rw [run_never_eq, strings_outcomeAfter, map_place_visits, outcomes, List.flatMap_map,
    List.nodup_flatMap]
  constructor
  · intro entry _
    exact nodup_place_outcomeOf entry
  · have hentries : (Archive.classEntries archive).Nodup := hnames.filter _
    refine hentries.imp ?_
    intro entry other hne
    rw [Function.onFun, List.disjoint_left]
    intro place hplace hplace'
    obtain ⟨found, hfound, rfl⟩ := List.mem_map.mp hplace
    obtain ⟨found', hfound', hsame⟩ := List.mem_map.mp hplace'
    have hentry := congrArg Prod.fst hsame
    change found'.entry = found.entry at hentry
    rw [entry_of_mem_outcomeOf hfound, entry_of_mem_outcomeOf hfound'] at hentry
    exact hne hentry.symm

end ArchiveScan

end JarText
