import JarText.Proofs.ClassCodec
import JarText.Proofs.Lists
import JarText.Proofs.MethodScan
import JarText.Proofs.PoolLookup

/-!
# The loads of a class and the texts that are found

`ClassScan.loads` lists every load of a string constant, method by method and in the order of the
instructions, without regard to what was found before. A scan threads the set of the texts it has
seen and their number through both of its loops; `Finds` says what one stretch of loads adds to
them, and stretches compose. So a scan finds the first load of each text and nothing else.
-/

set_option autoImplicit false

namespace JarText

/-- A load of a string constant in the code of a method. -/
structure Load where
  methodIndex : Nat
  method : Member
  body : CodeBody
  offset : Nat
  after : List Instruction
  stringIndex : UInt16
  textIndex : UInt16

/-- What a string that is found at a load carries, its number apart. -/
structure Load.Yields (entry : String) (file : ClassFile) (load : Load) (found : FoundString) :
    Prop where
  entry_eq : found.entry = entry
  textIndex_eq : found.textIndex = load.textIndex
  stringIndex_eq : found.stringIndex = load.stringIndex
  value_eq : file.pool.text load.textIndex = .ok found.value
  location_eq : Location.resolve file load.method load.body load.offset =
    .ok ⟨found.className, found.method, found.line⟩
  use_eq : found.use = Use.next? file.pool load.after

namespace ClassScan

def stringLoaded? (pool : Pool) (instruction : Instruction) : Option (UInt16 × UInt16) :=
  match instruction.loadIndex? with
  | none => none
  | some index =>
    match pool.get index with
    | .ok (.string text) => some (index, text)
    | _ => none

def loadsIn (pool : Pool) (index : Nat) (method : Member) (body : CodeBody) :
    List Instruction → List Load
  | [] => []
  | instruction :: after =>
    match stringLoaded? pool instruction with
    | none => loadsIn pool index method body after
    | some (stringIndex, textIndex) =>
      ⟨index, method, body, instruction.offset, after, stringIndex, textIndex⟩ ::
        loadsIn pool index method body after

def methodLoads (config : ScanConfig) (file : ClassFile) (index : Nat) (method : Member) :
    Except Fault (List Load) := do
  match ← lookedAt? config file method with
  | none => return []
  | some (_, body) => return loadsIn file.pool index method body (← Instruction.decode body.code)

/-- All loads of a class, in the order of its methods and of their instructions. -/
def loads (config : ScanConfig) (file : ClassFile) : Except Fault (List Load) := do
  let groups ← file.methods.zipIdx.mapM fun (method, index) => methodLoads config file index method
  return groups.flatten

/-! ## First loads -/

def firstLoads : List Load → List Load
  | [] => []
  | load :: rest => load :: (firstLoads rest).filter (·.textIndex != load.textIndex)

theorem firstLoads_append (front back : List Load) :
    firstLoads (front ++ back) = firstLoads front ++
      (firstLoads back).filter fun load => front.all (·.textIndex != load.textIndex) := by
  induction front with
  | nil => simp [firstLoads]
  | cons load front ih =>
    rw [List.cons_append, firstLoads, ih, firstLoads, List.filter_append, List.filter_filter,
      List.cons_append]
    congr 3
    funext other
    rw [List.all_cons, bne_comm]

theorem find?_of_mem_firstLoads {loads : List Load} {load : Load} (h : load ∈ firstLoads loads) :
    loads.find? (·.textIndex == load.textIndex) = some load := by
  induction loads with
  | nil => simp [firstLoads] at h
  | cons first rest ih =>
    rcases List.mem_cons.mp h with rfl | h
    · simp
    · obtain ⟨hmem, hne⟩ := List.mem_filter.mp h
      have hne : (first.textIndex == load.textIndex) = false := by
        rw [beq_eq_false_iff_ne]
        exact Ne.symm (bne_iff_ne.mp hne)
      rw [List.find?_cons, hne]
      exact ih hmem

theorem map_textIndex_firstLoads (loads : List Load) :
    (firstLoads loads).map (·.textIndex) = (loads.map (·.textIndex)).eraseDups := by
  induction loads with
  | nil => rfl
  | cons load rest ih =>
    rw [firstLoads, List.map_cons, List.map_cons, List.eraseDups_cons, eraseDups_filter, ← ih,
      List.filter_map]
    rfl

/-! ## What a stretch of loads adds -/

def freshLoads (seen : Std.TreeSet UInt16) (loads : List Load) : List Load :=
  (firstLoads loads).filter fun load => !seen.contains load.textIndex

/-- After these loads `seen` has become `seen'`, and the strings found are those of the fresh loads,
numbered from the size of `seen`. -/
structure Finds (entry : String) (file : ClassFile) (seen seen' : Std.TreeSet UInt16)
    (loads : List Load) (found : List FoundString) : Prop where
  contains_iff : ∀ index, seen'.contains index ↔
    seen.contains index ∨ ∃ load ∈ loads, load.textIndex = index
  size_eq : seen'.size = seen.size + found.length
  ids_eq : found.map (·.id) = List.range' seen.size found.length
  yields : List.Forall₂ (Load.Yields entry file) (freshLoads seen loads) found

section Finds

variable {entry : String} {file : ClassFile} {seen middle seen' : Std.TreeSet UInt16}
  {front back : List Load} {found more : List FoundString} {load : Load}

theorem Finds.nil (entry : String) (file : ClassFile) (seen : Std.TreeSet UInt16) :
    Finds entry file seen seen [] [] where
  contains_iff := by simp
  size_eq := rfl
  ids_eq := rfl
  yields := .nil

theorem Finds.of_seen (h : seen.contains load.textIndex) :
    Finds entry file seen seen [load] [] where
  contains_iff := by
    intro index
    constructor
    · exact Or.inl
    · rintro (hmem | ⟨other, hother, rfl⟩)
      · exact hmem
      · rw [List.mem_singleton.mp hother]
        exact h
  size_eq := rfl
  ids_eq := rfl
  yields := by
    have hnone : freshLoads seen [load] = [] := by simp [freshLoads, firstLoads, h]
    rw [hnone]
    exact .nil

theorem Finds.of_fresh {string : FoundString} (h : ¬ seen.contains load.textIndex)
    (hyields : load.Yields entry file string) (hid : string.id = seen.size) :
    Finds entry file seen (seen.insert load.textIndex) [load] [string] where
  contains_iff := by
    intro index
    rw [Std.TreeSet.contains_insert, Bool.or_eq_true, beq_iff_eq,
      Std.LawfulEqCmp.compare_eq_iff_eq]
    simp [or_comm]
  size_eq := by
    rw [Std.TreeSet.size_insert, if_neg h]
    rfl
  ids_eq := by simp [hid]
  yields := by
    have hload : freshLoads seen [load] = [load] := by simp [freshLoads, firstLoads, h]
    rw [hload]
    exact .cons hyields .nil

theorem Finds.freshLoads_append (h : Finds entry file seen middle front found) (back : List Load) :
    freshLoads seen (front ++ back) = freshLoads seen front ++ freshLoads middle back := by
  rw [freshLoads, firstLoads_append, List.filter_append, List.filter_filter]
  congr 1
  apply List.filter_congr
  intro load _
  rw [Bool.eq_iff_iff]
  simp only [Bool.and_eq_true, Bool.not_eq_true', ← Bool.not_eq_true, h.contains_iff,
    List.all_eq_true, bne_iff_ne, ne_eq, not_or, not_exists, not_and]

/-- Two stretches one after the other. -/
theorem Finds.append (h : Finds entry file seen middle front found)
    (h' : Finds entry file middle seen' back more) :
    Finds entry file seen seen' (front ++ back) (found ++ more) where
  contains_iff := by
    intro index
    rw [h'.contains_iff, h.contains_iff, or_assoc]
    simp only [List.mem_append, or_and_right, exists_or]
  size_eq := by
    rw [h'.size_eq, h.size_eq, List.length_append, Nat.add_assoc]
  ids_eq := by
    rw [List.map_append, h.ids_eq, h'.ids_eq, h.size_eq, List.length_append, List.range'_append_1]
  yields := by
    rw [h.freshLoads_append]
    exact List.rel_append h.yields h'.yields

end Finds

/-! ## The loops of a scan -/

section Loops

variable {config : ScanConfig} {entry : String} {file : ClassFile} {index : Nat} {method : Member}
  {body : CodeBody} {seen seen' : Std.TreeSet UInt16}

theorem stringLoaded?_eq {pool : Pool} {instruction : Instruction}
    {loaded : Option (UInt16 × UInt16)} (h : stringLoad? pool instruction = .ok loaded) :
    stringLoaded? pool instruction = loaded := by
  unfold stringLoad? at h
  unfold stringLoaded?
  cases hindex : instruction.loadIndex? with
  | none =>
    rw [hindex] at h
    cases h
    rfl
  | some index =>
    rw [hindex] at h
    obtain ⟨constant, hget, h⟩ := except_bind_eq_ok_iff.mp h
    simp only [hget]
    cases constant with
    | string text =>
      obtain ⟨target, htarget, hpure⟩ := except_bind_eq_ok_iff.mp h
      obtain ⟨hstring, _⟩ := Pool.textIndex_eq_ok_iff.mp htarget
      rw [hget] at hstring
      cases hstring
      cases hpure
      rfl
    | _ =>
      cases h
      rfl

theorem yields_of_describe (index : Nat) {id : Nat} {stringIndex textIndex : UInt16} {offset : Nat}
    {after : List Instruction} {found : FoundString}
    (h : describe entry file.pool (Location.ofBody file method body) id stringIndex textIndex offset
      after = .ok found) :
    Load.Yields entry file ⟨index, method, body, offset, after, stringIndex, textIndex⟩ found ∧
      found.id = id := by
  obtain ⟨value, hvalue, h⟩ := except_bind_eq_ok_iff.mp h
  obtain ⟨locations, hlocations, hpure⟩ := except_bind_eq_ok_iff.mp h
  cases hpure
  refine ⟨⟨rfl, rfl, rfl, hvalue, ?_, rfl⟩, rfl⟩
  rw [Location.resolve, hlocations]
  rfl

/-- The loop over the instructions of a method. -/
theorem finds_of_stringsFrom {instructions : List Instruction} {done strings : List FoundString}
    (h : stringsFrom entry file.pool (Location.ofBody file method body) instructions seen done =
      .ok (strings, seen')) (index : Nat) :
    ∃ found, strings = done.reverse ++ found ∧
      Finds entry file seen seen' (loadsIn file.pool index method body instructions) found := by
  induction instructions generalizing seen done with
  | nil =>
    cases h
    exact ⟨[], by simp, .nil entry file _⟩
  | cons instruction after ih =>
    rw [stringsFrom] at h
    rw [loadsIn]
    split at h
    · cases h
    · rename_i hload
      rw [stringLoaded?_eq hload]
      exact ih h
    · rename_i stringIndex textIndex hload
      rw [stringLoaded?_eq hload]
      simp only
      split at h
      · rename_i hseen
        obtain ⟨found, hstrings, hfinds⟩ := ih h
        exact ⟨found, hstrings, (Finds.of_seen hseen).append hfinds⟩
      · rename_i hfresh
        split at h
        · cases h
        · rename_i string hdescribe
          obtain ⟨hyields, hid⟩ := yields_of_describe index hdescribe
          obtain ⟨found, rfl, hfinds⟩ := ih h
          refine ⟨string :: found, by simp, ?_⟩
          exact (Finds.of_fresh hfresh hyields hid).append hfinds

/-- The group that a method with these strings gives: none if there are no strings. -/
def Groups (file : ClassFile) (index : Nat) (method : Member) (found : List FoundString) :
    Option MethodStrings → Prop
  | none => found = []
  | some group => group.index = index ∧ group.strings = found ∧ found ≠ [] ∧
      ∃ name descriptor, file.pool.text method.name = .ok name ∧
        file.pool.text method.descriptor = .ok descriptor ∧ group.signature = name ++ descriptor

theorem groups_groupOf? {signature : String} (strings : List FoundString)
    (h : lookedAt? config file method = .ok (some (signature, body))) :
    Groups file index method strings (groupOf? index signature strings) := by
  obtain ⟨_, name, descriptor, hname, hdescriptor, _, _, _, rfl⟩ := lookedAt?_eq_some_iff.mp h
  cases strings with
  | nil => rfl
  | cons found rest => exact ⟨rfl, rfl, by simp, name, descriptor, hname, hdescriptor, rfl⟩

/-- One method: the strings found are those of its loads. -/
theorem finds_of_scanMethod {group : Option MethodStrings}
    (h : scanMethod config entry file index method seen = .ok (group, seen')) :
    ∃ loads found, methodLoads config file index method = .ok loads ∧
      Finds entry file seen seen' loads found ∧ Groups file index method found group := by
  rw [scanMethod_eq_lookedAt?] at h
  obtain ⟨looked?, hlooked, h⟩ := except_bind_eq_ok_iff.mp h
  rw [methodLoads, hlooked]
  cases looked? with
  | none =>
    cases h
    exact ⟨[], [], rfl, .nil entry file seen, rfl⟩
  | some looked =>
    obtain ⟨signature, body⟩ := looked
    obtain ⟨instructions, hdecode, h⟩ := except_bind_eq_ok_iff.mp h
    obtain ⟨⟨strings, seen''⟩, hstrings, hpure⟩ := except_bind_eq_ok_iff.mp h
    cases hpure
    obtain ⟨found, hfound, hfinds⟩ := finds_of_stringsFrom hstrings index
    obtain rfl : strings = found := by simpa using hfound
    refine ⟨loadsIn file.pool index method body instructions, strings, ?_, hfinds,
      groups_groupOf? strings hlooked⟩
    change (Instruction.decode body.code >>= _) = _
    rw [hdecode]
    rfl

theorem of_mem_loadsIn {pool : Pool} {instructions : List Instruction} {load : Load}
    (h : load ∈ loadsIn pool index method body instructions) :
    load.methodIndex = index ∧ load.method = method := by
  induction instructions with
  | nil => cases h
  | cons instruction after ih =>
    rw [loadsIn] at h
    split at h
    · exact ih h
    · rcases List.mem_cons.mp h with rfl | h
      · exact ⟨rfl, rfl⟩
      · exact ih h

theorem of_mem_methodLoads {loads : List Load} {load : Load}
    (h : methodLoads config file index method = .ok loads) (hmem : load ∈ loads) :
    load.methodIndex = index ∧ load.method = method := by
  obtain ⟨looked?, _, h⟩ := except_bind_eq_ok_iff.mp h
  cases looked? with
  | none =>
    cases h
    cases hmem
  | some looked =>
    obtain ⟨instructions, _, hpure⟩ := except_bind_eq_ok_iff.mp h
    cases hpure
    exact of_mem_loadsIn hmem

theorem mem_of_mem_freshLoads {loads : List Load} {load : Load} (h : load ∈ freshLoads seen loads) :
    load ∈ loads := by
  have hfind := find?_of_mem_firstLoads (List.mem_filter.mp h).1
  exact List.mem_of_find?_eq_some hfind

theorem map_textIndex_eq {loads : List Load} {found : List FoundString}
    (h : List.Forall₂ (Load.Yields entry file) loads found) :
    loads.map (·.textIndex) = found.map (·.textIndex) := by
  induction h with
  | nil => rfl
  | cons hyields _ ih => rw [List.map_cons, List.map_cons, ih, hyields.textIndex_eq]

theorem method_eq_of_yields {load : Load} {found : FoundString} {name descriptor : String}
    (h : load.Yields entry file found) (hname : file.pool.text load.method.name = .ok name)
    (hdescriptor : file.pool.text load.method.descriptor = .ok descriptor) :
    found.method = name ++ descriptor := by
  have hlocation := h.location_eq
  rw [Location.resolve] at hlocation
  cases hbody : Location.ofBody file load.method load.body with
  | error fault =>
    rw [hbody] at hlocation
    cases hlocation
  | ok locations =>
    rw [hbody] at hlocation
    obtain ⟨className, _, hbody⟩ := except_bind_eq_ok_iff.mp hbody
    obtain ⟨name', hname', hbody⟩ := except_bind_eq_ok_iff.mp hbody
    obtain ⟨descriptor', hdescriptor', hbody⟩ := except_bind_eq_ok_iff.mp hbody
    obtain ⟨rows, _, hpure⟩ := except_bind_eq_ok_iff.mp hbody
    rw [hname] at hname'
    rw [hdescriptor] at hdescriptor'
    cases hname'
    cases hdescriptor'
    cases hpure
    exact (congrArg Location.method (Except.ok.inj hlocation)).symm

/-- A group of strings that were found at fresh loads of one method. -/
structure IsGroup (entry : String) (file : ClassFile) (fresh : List Load) (group : MethodStrings) :
    Prop where
  ne_nil : group.strings ≠ []
  found_at : ∀ found ∈ group.strings, found.method = group.signature ∧
    ∃ load ∈ fresh, load.methodIndex = group.index ∧ load.Yields entry file found

theorem IsGroup.mono {fresh fresh' : List Load} {group : MethodStrings}
    (h : IsGroup entry file fresh group) (hsub : ∀ load ∈ fresh, load ∈ fresh') :
    IsGroup entry file fresh' group where
  ne_nil := h.ne_nil
  found_at := by
    intro found hfound
    obtain ⟨hmethod, load, hload, hrest⟩ := h.found_at found hfound
    exact ⟨hmethod, load, hsub load hload, hrest⟩

theorem isGroup_of_groups {loads : List Load} {found : List FoundString} {group : MethodStrings}
    (hloads : methodLoads config file index method = .ok loads)
    (hfinds : Finds entry file seen seen' loads found)
    (hgroups : Groups file index method found (some group)) :
    IsGroup entry file (freshLoads seen loads) group := by
  obtain ⟨hindex, hstrings, hne, name, descriptor, hname, hdescriptor, hsignature⟩ := hgroups
  refine ⟨hstrings ▸ hne, ?_⟩
  intro string hstring
  rw [hstrings] at hstring
  obtain ⟨load, hload, hyields⟩ := exists_of_mem_right hfinds.yields hstring
  obtain ⟨hload_index, hload_method⟩ := of_mem_methodLoads hloads (mem_of_mem_freshLoads hload)
  rw [← hload_method] at hname hdescriptor
  exact ⟨(method_eq_of_yields hyields hname hdescriptor).trans hsignature.symm, load, hload,
    hload_index.trans hindex.symm, hyields⟩

/-- What the loop over the methods has to give: the groups of strings at the fresh loads of the
methods from `index` on. -/
structure Collects (config : ScanConfig) (entry : String) (file : ClassFile) (methods : List Member)
    (index : Nat) (seen : Std.TreeSet UInt16) (groups : List MethodStrings)
    (parts : List (List Load)) : Prop where
  loads_eq : ((methods.zipIdx index).mapM fun (method, i) => methodLoads config file i method) =
    .ok parts
  finds : ∃ seen', Finds entry file seen seen' parts.flatten (groups.flatMap (·.strings))
  increasing : (groups.map (·.index)).Pairwise (· < ·)
  isGroup : ∀ group ∈ groups,
    index ≤ group.index ∧ IsGroup entry file (freshLoads seen parts.flatten) group

theorem Collects.cons {middle : Std.TreeSet UInt16} {loads : List Load}
    {found : List FoundString} {group : Option MethodStrings} {methods : List Member}
    {groups : List MethodStrings} {parts : List (List Load)}
    (hloads : methodLoads config file index method = .ok loads)
    (hfinds : Finds entry file seen middle loads found)
    (hgroup : Groups file index method found group)
    (h : Collects config entry file methods (index + 1) middle groups parts) :
    Collects config entry file (method :: methods) index seen (group.toList ++ groups)
      (loads :: parts) where
  loads_eq := by
    rw [List.zipIdx_cons, List.mapM_cons]
    change (methodLoads config file index method >>= _) = _
    rw [hloads, h.loads_eq]
    rfl
  finds := by
    obtain ⟨seen', hrest⟩ := h.finds
    have hfound : found ++ groups.flatMap (·.strings) =
        (group.toList ++ groups).flatMap (·.strings) := by
      cases group with
      | none => rw [show found = [] from hgroup]; rfl
      | some group => rw [← hgroup.2.1]; rfl
    exact ⟨seen', hfound ▸ hfinds.append hrest⟩
  increasing := by
    cases group with
    | none => exact h.increasing
    | some group =>
      refine List.pairwise_cons.mpr ⟨?_, h.increasing⟩
      intro i hi
      obtain ⟨later, hlater, rfl⟩ := List.mem_map.mp hi
      have hle := (h.isGroup later hlater).1
      have hindex : group.index = index := hgroup.1
      change group.index < later.index
      omega
  isGroup := by
    intro later hlater
    rw [List.flatten_cons, hfinds.freshLoads_append]
    rcases List.mem_append.mp hlater with hhere | hlater
    · cases group with
      | none => cases hhere
      | some group =>
        obtain rfl := List.mem_singleton.mp hhere
        refine ⟨Nat.le_of_eq hgroup.1.symm, ?_⟩
        exact (isGroup_of_groups hloads hfinds hgroup).mono fun _ => List.mem_append_left _
    · obtain ⟨hle, hisGroup⟩ := h.isGroup later hlater
      exact ⟨by omega, hisGroup.mono fun _ => List.mem_append_right _⟩

theorem collects_of_methodsFrom {methods : List Member} {done groups : List MethodStrings}
    (h : methodsFrom config entry file methods index seen done = .ok groups) :
    ∃ more parts, groups = done.reverse ++ more ∧
      Collects config entry file methods index seen more parts := by
  induction methods generalizing index seen done with
  | nil =>
    cases h
    exact ⟨[], [], by simp, rfl, ⟨seen, .nil entry file seen⟩, .nil, by simp⟩
  | cons method methods ih =>
    rw [methodsFrom] at h
    split at h
    · cases h
    · rename_i hscan
      obtain ⟨loads, found, hloads, hfinds, hgroup⟩ := finds_of_scanMethod hscan
      obtain ⟨more, parts, hmore, hcollects⟩ := ih h
      exact ⟨more, loads :: parts, hmore, hcollects.cons hloads hfinds hgroup⟩
    · rename_i group middle hscan
      obtain ⟨loads, found, hloads, hfinds, hgroup⟩ := finds_of_scanMethod hscan
      obtain ⟨more, parts, hmore, hcollects⟩ := ih h
      exact ⟨group :: more, loads :: parts, by simpa using hmore,
        hcollects.cons hloads hfinds hgroup⟩

end Loops

theorem freshLoads_empty (loads : List Load) : freshLoads ∅ loads = firstLoads loads := by
  simp [freshLoads]

theorem collects_of_scan {config : ScanConfig} {entry : String} {data : Bytes} {result : ClassScan}
    (h : scan config entry data = .ok result) :
    ∃ file parts, ClassFile.read data = .ok file ∧
      Collects config entry file file.methods 0 ∅ result.methods parts := by
  obtain ⟨file, hread, h⟩ := except_bind_eq_ok_iff.mp h
  obtain ⟨className, _, h⟩ := except_bind_eq_ok_iff.mp h
  obtain ⟨groups, hgroups, hpure⟩ := except_bind_eq_ok_iff.mp h
  obtain ⟨more, parts, hmore, hcollects⟩ := collects_of_methodsFrom hgroups
  obtain rfl : groups = more := by simpa using hmore
  cases hpure
  exact ⟨file, parts, hread, hcollects⟩

theorem exists_load_of_mem_strings {config : ScanConfig} {entry : String} {data : Bytes}
    {result : ClassScan} {found : FoundString} (h : scan config entry data = .ok result)
    (hfound : found ∈ result.strings) :
    ∃ file load, ClassFile.read data = .ok file ∧ Load.Yields entry file load found := by
  obtain ⟨file, parts, hread, hcollects⟩ := collects_of_scan h
  obtain ⟨group, hgroup, hstring⟩ := List.mem_flatMap.mp hfound
  obtain ⟨_, load, _, _, hyields⟩ := (hcollects.isGroup group hgroup).2.found_at found hstring
  exact ⟨file, load, hread, hyields⟩

theorem map_id_strings {config : ScanConfig} {entry : String} {data : Bytes} {result : ClassScan}
    (h : scan config entry data = .ok result) :
    result.strings.map (·.id) = List.range result.strings.length := by
  obtain ⟨file, parts, _, hcollects⟩ := collects_of_scan h
  obtain ⟨seen', hfinds⟩ := hcollects.finds
  have hids := hfinds.ids_eq
  rwa [Std.TreeSet.size_emptyc, ← List.range_eq_range'] at hids

/-- A scan finds one string for each text that is loaded, at its first load, numbered from zero in
the order of the first loads, and puts the strings of each method into a group of their own. -/
theorem scan_finds_first_loads {config : ScanConfig} {entry : String} {data : Bytes}
    {result : ClassScan} (h : scan config entry data = .ok result) :
    ∃ file loads, ClassFile.read data = .ok file ∧ ClassScan.loads config file = .ok loads ∧
      result.strings.map (·.textIndex) = (loads.map (·.textIndex)).eraseDups ∧
      result.strings.map (·.id) = List.range result.strings.length ∧
      (result.methods.map (·.index)).Pairwise (· < ·) ∧
      ∀ group ∈ result.methods, group.strings ≠ [] ∧
        ∀ found ∈ group.strings, found.method = group.signature ∧
          ∃ load, loads.find? (·.textIndex == found.textIndex) = some load ∧
            load.methodIndex = group.index ∧ load.Yields entry file found := by
  obtain ⟨file, parts, hread, hcollects⟩ := collects_of_scan h
  obtain ⟨seen', hfinds⟩ := hcollects.finds
  refine ⟨file, parts.flatten, hread, ?_, ?_, ?_, hcollects.increasing, ?_⟩
  · rw [loads, hcollects.loads_eq]
    rfl
  · rw [← map_textIndex_firstLoads, ← freshLoads_empty]
    exact (map_textIndex_eq hfinds.yields).symm
  · exact map_id_strings h
  · intro group hgroup
    obtain ⟨_, hisGroup⟩ := hcollects.isGroup group hgroup
    refine ⟨hisGroup.ne_nil, ?_⟩
    intro found hfound
    obtain ⟨hmethod, load, hload, hindex, hyields⟩ := hisGroup.found_at found hfound
    rw [freshLoads_empty] at hload
    refine ⟨hmethod, load, ?_, hindex, hyields⟩
    rw [hyields.textIndex_eq]
    exact find?_of_mem_firstLoads hload

theorem scan_specimen_finds_first_loads :
    ∃ result, scan {} "A.class" ClassFile.specimenBytes = .ok result ∧
      result.strings.map (·.textIndex) = [6, 11] ∧ result.strings.map (·.id) = [0, 1] ∧
      ∃ loads, ClassScan.loads {} ClassFile.specimen = .ok loads ∧
        loads.map (·.textIndex) = [6, 6, 6, 11] ∧
        ∀ group ∈ result.methods, ∀ found ∈ group.strings, ∃ load,
          loads.find? (·.textIndex == found.textIndex) = some load ∧
            load.methodIndex = group.index ∧
            load.Yields "A.class" ClassFile.specimen found := by
  have hscan : (scan {} "A.class" ClassFile.specimenBytes).isOk := by decide +kernel
  cases h : scan {} "A.class" ClassFile.specimenBytes with
  | error fault =>
    rw [h] at hscan
    cases hscan
  | ok result =>
    obtain ⟨file, loads, hread, hloads, htexts, hids, _, hgroups⟩ := scan_finds_first_loads h
    rw [ClassFile.read_specimenBytes] at hread
    cases hread
    have hload_texts : (ClassScan.loads {} ClassFile.specimen).toOption.map
        (List.map (·.textIndex)) = some [6, 6, 6, 11] := by decide +kernel
    rw [hloads] at hload_texts
    have hload_texts : loads.map (·.textIndex) = [6, 6, 6, 11] := Option.some.inj hload_texts
    have htexts : result.strings.map (·.textIndex) = [6, 11] := by
      rw [htexts, hload_texts]
      decide
    have hlength : result.strings.length = 2 := by
      rw [← List.length_map (·.textIndex), htexts]
      rfl
    rw [hlength] at hids
    refine ⟨result, rfl, htexts, hids, loads, hloads, hload_texts, ?_⟩
    intro group hgroup found hfound
    obtain ⟨_, load, hload⟩ := (hgroups group hgroup).2 found hfound
    exact ⟨load, hload⟩

end ClassScan

end JarText
