import JarText.Proofs.FirstLoads

/-!
# Classes that can be scanned

`ClassScan.Scannable` lists what has to be in order for a scan, and nothing else of a class matters.
Names, bodies and loads are needed wherever a method is looked at. Line tables are needed only where
a text is found, that is at its first load in the class: whether a broken table matters depends on
the methods before.
-/

set_option autoImplicit false

namespace JarText

theorem exists_mapM_eq_ok_iff {ε α β : Type} {f : α → Except ε β} {as : List α} :
    (∃ bs, as.mapM f = .ok bs) ↔ ∀ a ∈ as, ∃ b, f a = .ok b := by
  induction as with
  | nil =>
    simp only [List.not_mem_nil, false_imp_iff, implies_true, iff_true]
    exact ⟨[], rfl⟩
  | cons a as ih =>
    rw [List.mapM_cons, List.forall_mem_cons, ← ih, exists_bind_eq_ok_iff]
    constructor
    · rintro ⟨b, hb, h⟩
      obtain ⟨bs, hbs, _⟩ := exists_bind_eq_ok_iff.mp h
      exact ⟨⟨b, hb⟩, bs, hbs⟩
    · rintro ⟨⟨b, hb⟩, bs, hbs⟩
      exact ⟨b, hb, exists_bind_eq_ok_iff.mpr ⟨bs, hbs, b :: bs, rfl⟩⟩

def Pool.HoldsText (pool : Pool) (index : UInt16) : Prop :=
  ∃ bytes, pool.get index = .ok (.utf8 bytes)

theorem Pool.exists_text_iff {pool : Pool} {index : UInt16} :
    (∃ text, pool.text index = .ok text) ↔ pool.HoldsText index := by
  simp only [Pool.HoldsText, ← Pool.payload_eq_ok_iff, Pool.text]
  cases pool.payload index with
  | error fault => simp [Functor.map, Except.map]
  | ok bytes => simp [Functor.map, Except.map]

namespace CodeBody

def TablesRead (body : CodeBody) (pool : Pool) : Prop :=
  ∀ attr ∈ body.attributes, attr.isNamed pool (Text.Utf8.encode "LineNumberTable") = true →
    ∃ rows, LineRow.tableOfInfo attr.info = .ok rows

theorem exists_lineRows_iff {body : CodeBody} {pool : Pool} :
    (∃ rows, body.lineRows pool = .ok rows) ↔ body.TablesRead pool := by
  rw [CodeBody.lineRows, exists_bind_eq_ok_iff]
  simp only [TablesRead, pure, Except.pure, Except.ok.injEq, exists_eq', and_true,
    exists_mapM_eq_ok_iff, List.mem_filter, and_imp]

end CodeBody

namespace ClassScan

/-- A load names a usable slot, and if that is a string, then a string of a text. -/
def LoadResolves (pool : Pool) (instruction : Instruction) : Prop :=
  ∀ index, instruction.loadIndex? = some index → ∃ constant, pool.get index = .ok constant ∧
    ∀ text, constant = .string text → pool.HoldsText text

/-- The method is the static initializer of an enum, and these are passed over. -/
def IsPassedOver (config : ScanConfig) (file : ClassFile) (method : Member) : Prop :=
  config.skipEnumInitializers = true ∧ file.isEnum = true ∧
    file.pool.text method.name = .ok "<clinit>" ∧ file.pool.text method.descriptor = .ok "()V"

/-- The code can be decoded and its loads resolve. -/
def CodeReads (pool : Pool) (code : Bytes) : Prop :=
  ∃ instructions, Instruction.decode code = .ok instructions ∧
    ∀ instruction ∈ instructions, LoadResolves pool instruction

/-- What has to be in order in a method that is not abstract. -/
structure MethodReads (config : ScanConfig) (file : ClassFile) (method : Member) : Prop where
  name : file.pool.HoldsText method.name
  descriptor : file.pool.HoldsText method.descriptor
  body : ¬ IsPassedOver config file method → ∀ attr,
    Attribute.find? method.attributes file.pool "Code" = some attr →
      ∃ body, CodeBody.ofInfo attr.info = .ok body ∧
        (body.code ≠ [] → CodeReads file.pool body.code)

/-- What has to be in order in a class. -/
structure Scannable (config : ScanConfig) (file : ClassFile) : Prop where
  className : ∃ name, file.pool.get file.thisClass = .ok (.classInfo name) ∧
    file.pool.HoldsText name
  methods : ∀ method ∈ file.methods, method.isAbstract = false → MethodReads config file method
  /-- Lines are told at the first load of each text, and the class has loads once its methods are in
  order: see `exists_loads`. -/
  tables : ∀ loads, ClassScan.loads config file = .ok loads →
    ∀ load, loads.find? (·.textIndex == load.textIndex) = some load →
      load.body.TablesRead file.pool

variable {config : ScanConfig} {entry : String} {file : ClassFile} {index : Nat} {method : Member}
  {methods : List Member} {body : CodeBody} {seen : Std.TreeSet UInt16} {pool : Pool}
  {instruction : Instruction} {instructions : List Instruction}

/-! ## Names and locations -/

theorem exists_className_iff : (∃ name, file.className = .ok name) ↔
    ∃ name, file.pool.get file.thisClass = .ok (.classInfo name) ∧ file.pool.HoldsText name := by
  rw [ClassFile.className, Pool.className, exists_bind_eq_ok_iff]
  constructor
  · rintro ⟨constant, hget, h⟩
    cases constant with
    | classInfo name => exact ⟨name, hget, Pool.exists_text_iff.mp h⟩
    | _ =>
      obtain ⟨_, h⟩ := h
      cases h
  · rintro ⟨name, hget, hname⟩
    exact ⟨_, hget, Pool.exists_text_iff.mpr hname⟩

theorem exists_ofBody_iff : (∃ locations, Location.ofBody file method body = .ok locations) ↔
    (∃ name, file.className = .ok name) ∧ file.pool.HoldsText method.name ∧
      file.pool.HoldsText method.descriptor ∧ body.TablesRead file.pool := by
  simp only [Location.ofBody, exists_bind_eq_ok_iff, ← Pool.exists_text_iff,
    ← CodeBody.exists_lineRows_iff]
  constructor
  · rintro ⟨className, hclass, name, hname, descriptor, hdescriptor, rows, hrows, _⟩
    exact ⟨⟨className, hclass⟩, ⟨name, hname⟩, ⟨descriptor, hdescriptor⟩, rows, hrows⟩
  · rintro ⟨⟨className, hclass⟩, ⟨name, hname⟩, ⟨descriptor, hdescriptor⟩, rows, hrows⟩
    exact ⟨className, hclass, name, hname, descriptor, hdescriptor, rows, hrows, _, rfl⟩

/-! ## Loads -/

theorem mem_firstLoads_iff {loads : List Load} {load : Load} :
    load ∈ firstLoads loads ↔ loads.find? (·.textIndex == load.textIndex) = some load := by
  refine ⟨find?_of_mem_firstLoads, ?_⟩
  intro h
  induction loads with
  | nil => cases h
  | cons first rest ih =>
    rw [List.find?_cons] at h
    split at h
    · rw [← Option.some.inj h]
      exact List.mem_cons_self
    · rename_i hne
      refine List.mem_cons_of_mem _ (List.mem_filter.mpr ⟨ih h, ?_⟩)
      rw [bne_comm, bne, hne]
      rfl

theorem freshLoads_cons_of_seen {load : Load} (h : seen.contains load.textIndex)
    (rest : List Load) : freshLoads seen (load :: rest) = freshLoads seen rest := by
  rw [freshLoads, firstLoads, List.filter_cons_of_neg (by simp [h]), List.filter_filter]
  apply List.filter_congr
  intro other _
  by_cases heq : other.textIndex = load.textIndex
  · simp [heq, h]
  · simp [heq]

theorem freshLoads_cons_of_fresh {load : Load} (h : ¬ seen.contains load.textIndex)
    (rest : List Load) :
    freshLoads seen (load :: rest) = load :: freshLoads (seen.insert load.textIndex) rest := by
  rw [freshLoads, firstLoads, List.filter_cons_of_pos (by simp [h]), List.filter_filter]
  congr 1
  apply List.filter_congr
  intro other _
  rw [Std.TreeSet.contains_insert, Bool.not_or, Bool.and_comm]
  congr 1
  rw [bne_comm, bne, Bool.eq_iff_iff]
  simp

theorem exists_stringLoad?_iff :
    (∃ loaded, stringLoad? pool instruction = .ok loaded) ↔ LoadResolves pool instruction := by
  unfold stringLoad? LoadResolves
  cases instruction.loadIndex? with
  | none => simp
  | some index =>
    simp only [Option.some.injEq, forall_eq', exists_bind_eq_ok_iff]
    refine exists_congr fun constant => and_congr_right fun hget => ?_
    cases constant with
    | string text =>
      simp only [exists_bind_eq_ok_iff, Pool.textIndex_eq_ok_iff, hget, Constant.string.injEq,
        forall_eq', Pool.payload_eq_ok_iff, Except.ok.injEq]
      constructor
      · rintro ⟨target, ⟨rfl, hbytes⟩, _⟩
        exact hbytes
      · intro hbytes
        exact ⟨text, ⟨rfl, hbytes⟩, _, rfl⟩
    | _ => simp [pure, Except.pure]

theorem holdsText_of_stringLoad? {stringIndex textIndex : UInt16}
    (h : stringLoad? pool instruction = .ok (some (stringIndex, textIndex))) :
    pool.HoldsText textIndex := by
  unfold stringLoad? at h
  split at h
  · cases h
  · obtain ⟨constant, _, h⟩ := except_bind_eq_ok_iff.mp h
    cases constant with
    | string text =>
      obtain ⟨target, htarget, hpure⟩ := except_bind_eq_ok_iff.mp h
      cases hpure
      obtain ⟨_, bytes, hbytes⟩ := Pool.textIndex_eq_ok_iff.mp htarget
      exact ⟨bytes, Pool.payload_eq_ok_iff.mp hbytes⟩
    | _ => cases h

theorem exists_describe_iff {id : Nat} {stringIndex textIndex : UInt16} {offset : Nat}
    {after : List Instruction} :
    (∃ found, describe entry file.pool (Location.ofBody file method body) id stringIndex textIndex
      offset after = .ok found) ↔
    file.pool.HoldsText textIndex ∧
      ∃ locations, Location.ofBody file method body = .ok locations := by
  rw [describe, exists_bind_eq_ok_iff, ← Pool.exists_text_iff]
  constructor
  · rintro ⟨text, htext, h⟩
    obtain ⟨locations, hlocations, _⟩ := exists_bind_eq_ok_iff.mp h
    exact ⟨⟨text, htext⟩, locations, hlocations⟩
  · rintro ⟨⟨text, htext⟩, locations, hlocations⟩
    exact ⟨text, htext, exists_bind_eq_ok_iff.mpr ⟨locations, hlocations, _, rfl⟩⟩

/-! ## The loops of a scan -/

/-- The loop over the instructions of a method whose names are in order. -/
theorem exists_stringsFrom_iff (hbody : (∃ locations,
      Location.ofBody file method body = .ok locations) ↔ body.TablesRead file.pool) (index : Nat)
    (done : List FoundString) :
    (∃ result, stringsFrom entry file.pool (Location.ofBody file method body) instructions seen
      done = .ok result) ↔
    (∀ instruction ∈ instructions, LoadResolves file.pool instruction) ∧
      ∀ load ∈ freshLoads seen (loadsIn file.pool index method body instructions),
        load.body.TablesRead file.pool := by
  induction instructions generalizing seen done with
  | nil => simp [stringsFrom, loadsIn, freshLoads, firstLoads]
  | cons instruction after ih =>
    rw [stringsFrom, loadsIn, List.forall_mem_cons, ← exists_stringLoad?_iff]
    cases hload : stringLoad? file.pool instruction with
    | error fault => simp
    | ok loaded =>
      rw [stringLoaded?_eq hload]
      cases loaded with
      | none => simpa using ih done
      | some pair =>
        obtain ⟨stringIndex, textIndex⟩ := pair
        simp only
        by_cases hseen : seen.contains textIndex
        · rw [if_pos hseen, freshLoads_cons_of_seen hseen]
          simpa using ih done
        · rw [if_neg hseen, freshLoads_cons_of_fresh hseen, List.forall_mem_cons, ← hbody]
          split
          · rename_i fault hdescribe
            simp only [reduceCtorEq, exists_false, false_iff]
            rintro ⟨_, hlocations, _⟩
            obtain ⟨found, hfound⟩ :=
              exists_describe_iff.mpr ⟨holdsText_of_stringLoad? hload, hlocations⟩
            rw [hdescribe] at hfound
            cases hfound
          · rename_i found hdescribe
            obtain ⟨_, hlocations⟩ := exists_describe_iff.mp ⟨found, hdescribe⟩
            simpa [hlocations] using ih (found :: done)

theorem isPassedOver_iff {name descriptor : String} (hname : file.pool.text method.name = .ok name)
    (hdescriptor : file.pool.text method.descriptor = .ok descriptor) :
    IsPassedOver config file method ↔
      (config.skipEnumInitializers && isEnumInitializer file name descriptor) = true := by
  simp [IsPassedOver, isEnumInitializer, hname, hdescriptor, and_assoc]

theorem exists_body_iff {P : CodeBody → Prop} :
    (∃ body?, method.body file.pool = .ok body? ∧ ∀ body, body? = some body → P body) ↔
    ∀ attr, Attribute.find? method.attributes file.pool "Code" = some attr →
      ∃ body, CodeBody.ofInfo attr.info = .ok body ∧ P body := by
  rw [Member.body]
  cases Attribute.find? method.attributes file.pool "Code" with
  | none => simp
  | some attr =>
    cases hbody : CodeBody.ofInfo attr.info with
    | error fault => simp [hbody, Functor.map, Except.map]
    | ok body => simp [hbody, Functor.map, Except.map]

theorem methodReads_iff : (method.isAbstract = false → MethodReads config file method) ↔
    ∃ looked?, lookedAt? config file method = .ok looked? ∧
      ∀ signature body, looked? = some (signature, body) → CodeReads file.pool body.code := by
  unfold lookedAt?
  by_cases habstract : method.isAbstract = true
  · rw [if_pos habstract, habstract]
    simp [pure, Except.pure]
  · rw [if_neg habstract]
    simp only [exists_bind_and_iff]
    constructor
    · intro hreads
      have hreads := hreads (Bool.not_eq_true _ ▸ habstract)
      obtain ⟨name, hname⟩ := Pool.exists_text_iff.mpr hreads.name
      obtain ⟨descriptor, hdescriptor⟩ := Pool.exists_text_iff.mpr hreads.descriptor
      refine ⟨name, hname, descriptor, hdescriptor, ?_⟩
      split
      · exact ⟨none, rfl, by simp⟩
      · rename_i hskip
        rw [← isPassedOver_iff hname hdescriptor] at hskip
        obtain ⟨body?, hbody, hcode⟩ := exists_body_iff.mpr (hreads.body hskip)
        refine exists_bind_and_iff.mpr ⟨body?, hbody, ?_⟩
        cases body? with
        | none => exact ⟨none, rfl, by simp⟩
        | some body =>
          have hcode := hcode body rfl
          simp only
          split
          · exact ⟨none, rfl, by simp⟩
          · rename_i hempty
            refine ⟨_, rfl, ?_⟩
            rintro _ _ ⟨⟩
            exact hcode (by simpa using hempty)
    · rintro ⟨name, hname, descriptor, hdescriptor, h⟩ _
      refine ⟨Pool.exists_text_iff.mp ⟨name, hname⟩,
        Pool.exists_text_iff.mp ⟨descriptor, hdescriptor⟩, ?_⟩
      intro hskip
      rw [isPassedOver_iff hname hdescriptor] at hskip
      rw [if_neg hskip] at h
      obtain ⟨body?, hbody, h⟩ := exists_bind_and_iff.mp h
      refine exists_body_iff.mp ⟨body?, hbody, ?_⟩
      rintro body rfl hne
      simp only [List.isEmpty_iff, if_neg hne] at h
      obtain ⟨looked?, hpure, hcode⟩ := h
      cases hpure
      exact hcode _ body rfl

theorem exists_scanBody_iff {signature : String} (hclass : ∃ name, file.className = .ok name)
    (hlooked : lookedAt? config file method = .ok (some (signature, body))) :
    (∃ result, scanBody entry file index method seen signature body = .ok result) ↔
      ∃ instructions, Instruction.decode body.code = .ok instructions ∧
        (∀ instruction ∈ instructions, LoadResolves file.pool instruction) ∧
        ∀ load ∈ freshLoads seen (loadsIn file.pool index method body instructions),
          load.body.TablesRead file.pool := by
  obtain ⟨_, name, descriptor, hname, hdescriptor, _⟩ := lookedAt?_eq_some_iff.mp hlooked
  have hbody : (∃ locations, Location.ofBody file method body = .ok locations) ↔
      body.TablesRead file.pool := by
    rw [exists_ofBody_iff, ← Pool.exists_text_iff, ← Pool.exists_text_iff]
    simp [hclass, hname, hdescriptor]
  rw [scanBody, exists_bind_eq_ok_iff]
  refine exists_congr fun instructions => and_congr_right fun _ => ?_
  rw [exists_bind_eq_ok_iff, ← exists_stringsFrom_iff hbody index []]
  exact exists_congr fun _ => and_iff_left ⟨_, rfl⟩

/-- One method. -/
theorem exists_scanMethod_iff (hclass : ∃ name, file.className = .ok name) :
    (∃ result, scanMethod config entry file index method seen = .ok result) ↔
      (method.isAbstract = false → MethodReads config file method) ∧
        ∃ loads, methodLoads config file index method = .ok loads ∧
          ∀ load ∈ freshLoads seen loads, load.body.TablesRead file.pool := by
  rw [scanMethod_eq_lookedAt?, methodReads_iff, methodLoads, exists_bind_eq_ok_iff]
  simp only [exists_bind_and_iff]
  cases hlooked : lookedAt? config file method with
  | error fault => simp
  | ok looked? =>
    simp only [Except.ok.injEq, exists_eq_left']
    cases looked? with
    | none => simp [pure, Except.pure, freshLoads, firstLoads]
    | some looked =>
      obtain ⟨signature, body⟩ := looked
      rw [exists_scanBody_iff hclass hlooked]
      simp only [exists_bind_and_iff]
      cases hdecode : Instruction.decode body.code with
      | error fault => simp [CodeReads, hdecode]
      | ok instructions => simp [CodeReads, hdecode, pure, Except.pure]

theorem finds_of_methodLoads {group : Option MethodStrings} {middle : Std.TreeSet UInt16}
    {loads : List Load} (hloads : methodLoads config file index method = .ok loads)
    (hscan : scanMethod config entry file index method seen = .ok (group, middle)) :
    ∃ found, Finds entry file seen middle loads found := by
  obtain ⟨loads', found, hloads', hfinds, _⟩ := finds_of_scanMethod hscan
  obtain rfl := Except.ok.inj (hloads.symm.trans hloads')
  exact ⟨found, hfinds⟩

theorem mem_freshLoads_append {front : List Load} {load : Load} (h : load ∈ freshLoads seen front)
    (back : List Load) : load ∈ freshLoads seen (front ++ back) := by
  rw [freshLoads, firstLoads_append, List.filter_append]
  exact List.mem_append_left _ h

theorem exists_methodsFrom_cons_iff {done : List MethodStrings} :
    (∃ groups, methodsFrom config entry file (method :: methods) index seen done = .ok groups) ↔
      ∃ result, scanMethod config entry file index method seen = .ok result ∧
        ∃ groups, methodsFrom config entry file methods (index + 1) result.2
          (result.1.toList ++ done) = .ok groups := by
  rw [methodsFrom]
  cases scanMethod config entry file index method seen with
  | error fault => simp
  | ok result =>
    obtain ⟨group, middle⟩ := result
    cases group <;> simp

/-- The loop over the methods. -/
theorem exists_methodsFrom_iff (hclass : ∃ name, file.className = .ok name)
    (done : List MethodStrings) :
    (∃ groups, methodsFrom config entry file methods index seen done = .ok groups) ↔
      (∀ method ∈ methods, method.isAbstract = false → MethodReads config file method) ∧
        ∃ parts, ((methods.zipIdx index).mapM fun (method, i) => methodLoads config file i method) =
          .ok parts ∧ ∀ load ∈ freshLoads seen parts.flatten, load.body.TablesRead file.pool := by
  induction methods generalizing index seen done with
  | nil => simp [methodsFrom, pure, Except.pure, freshLoads, firstLoads]
  | cons method methods ih =>
    rw [List.forall_mem_cons, List.zipIdx_cons, List.mapM_cons]
    simp only [exists_methodsFrom_cons_iff, exists_bind_and_iff, ih]
    constructor
    · rintro ⟨⟨group, middle⟩, hscan, hmethods, parts, hparts, hafter⟩
      obtain ⟨hmethod, loads, hloads, hhere⟩ := (exists_scanMethod_iff hclass).mp ⟨_, hscan⟩
      obtain ⟨found, hfinds⟩ := finds_of_methodLoads hloads hscan
      refine ⟨⟨hmethod, hmethods⟩, loads, hloads, parts, hparts, _, rfl, ?_⟩
      rw [List.flatten_cons, hfinds.freshLoads_append, List.forall_mem_append]
      exact ⟨hhere, hafter⟩
    · rintro ⟨⟨hmethod, hmethods⟩, loads, hloads, parts, hparts, _, ⟨⟩, htables⟩
      rw [List.flatten_cons] at htables
      have hhere : ∀ load ∈ freshLoads seen loads, load.body.TablesRead file.pool :=
        fun load hload => htables load (mem_freshLoads_append hload _)
      -- Only now is it known which texts the method leaves seen for the methods after it.
      obtain ⟨⟨group, middle⟩, hscan⟩ :=
        (exists_scanMethod_iff hclass).mpr ⟨hmethod, loads, hloads, hhere⟩
      obtain ⟨found, hfinds⟩ := finds_of_methodLoads hloads hscan
      rw [hfinds.freshLoads_append, List.forall_mem_append] at htables
      exact ⟨_, hscan, hmethods, parts, hparts, htables.2⟩

theorem exists_methodLoads (index : Nat)
    (h : method.isAbstract = false → MethodReads config file method) :
    ∃ loads, methodLoads config file index method = .ok loads := by
  obtain ⟨looked?, hlooked, hcode⟩ := methodReads_iff.mp h
  refine exists_bind_eq_ok_iff.mpr ⟨looked?, hlooked, ?_⟩
  cases looked? with
  | none => exact ⟨[], rfl⟩
  | some looked =>
    obtain ⟨instructions, hdecode, _⟩ := hcode looked.1 looked.2 rfl
    exact exists_bind_eq_ok_iff.mpr ⟨instructions, hdecode, _, rfl⟩

theorem exists_loads
    (h : ∀ method ∈ file.methods, method.isAbstract = false → MethodReads config file method) :
    ∃ parts, (file.methods.zipIdx.mapM fun (method, index) => methodLoads config file index method) =
      .ok parts ∧ ClassScan.loads config file = .ok parts.flatten := by
  have hparts : ∃ parts, (file.methods.zipIdx.mapM fun (method, index) =>
      methodLoads config file index method) = .ok parts := by
    refine exists_mapM_eq_ok_iff.mpr ?_
    rintro ⟨method, index⟩ hmem
    exact exists_methodLoads index (h method (List.fst_mem_of_mem_zipIdx hmem))
  obtain ⟨parts, hparts⟩ := hparts
  exact ⟨parts, hparts, except_bind_eq_ok_iff.mpr ⟨parts, hparts, rfl⟩⟩

/-- All methods of a class, with no text seen before them. -/
theorem exists_groups_iff (hclass : ∃ name, file.className = .ok name) :
    (∃ groups, methodsFrom config entry file file.methods 0 ∅ [] = .ok groups) ↔
      (∀ method ∈ file.methods, method.isAbstract = false → MethodReads config file method) ∧
        ∀ loads, ClassScan.loads config file = .ok loads →
          ∀ load, loads.find? (·.textIndex == load.textIndex) = some load →
            load.body.TablesRead file.pool := by
  rw [exists_methodsFrom_iff hclass]
  refine and_congr_right fun hmethods => ?_
  obtain ⟨parts, hparts, hloads⟩ := exists_loads hmethods
  simp only [hparts, hloads, Except.ok.injEq, exists_eq_left', forall_eq', freshLoads_empty,
    mem_firstLoads_iff]

/-- A scan gives a result exactly when the class can be read and is in order. -/
theorem exists_scan_iff_scannable (config : ScanConfig) (entry : String) (data : Bytes) :
    (∃ result, scan config entry data = .ok result) ↔
      ∃ file, ClassFile.read data = .ok file ∧ Scannable config file := by
  rw [scan, exists_bind_eq_ok_iff]
  refine exists_congr fun file => and_congr_right fun _ => ?_
  rw [exists_bind_eq_ok_iff]
  constructor
  · rintro ⟨className, hclass, h⟩
    obtain ⟨groups, hgroups, _⟩ := exists_bind_eq_ok_iff.mp h
    obtain ⟨hmethods, htables⟩ := (exists_groups_iff ⟨className, hclass⟩).mp ⟨groups, hgroups⟩
    exact ⟨exists_className_iff.mp ⟨className, hclass⟩, hmethods, htables⟩
  · rintro ⟨hclass, hmethods, htables⟩
    obtain ⟨className, hclass⟩ := exists_className_iff.mpr hclass
    obtain ⟨groups, hgroups⟩ := (exists_groups_iff ⟨className, hclass⟩).mpr ⟨hmethods, htables⟩
    exact ⟨className, hclass, exists_bind_eq_ok_iff.mpr ⟨groups, hgroups, _, rfl⟩⟩

end ClassScan

end JarText
