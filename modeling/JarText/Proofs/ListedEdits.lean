import JarText.Proofs.EditBatches
import JarText.Proofs.Rescan

/-!
# Edits of listed texts

An edit of a text that a report lists names a class that can be read, and in it a slot that holds a
text. No run of edits takes that away, whether it succeeds or stops midway. So however many runs of
such edits follow each other, an edit is refused for the length of its own text or not at all.
-/

set_option autoImplicit false

namespace JarText.Edit

open Text

variable {archive : MemoryArchive} {edit : Edit} {edits : List Edit}

/-- The entry of an edit holds a class that can be read, with a text at the index. -/
def HasTarget (archive : MemoryArchive) (edit : Edit) : Prop :=
  ∃ file bytes, archive.class? edit.entry = some file ∧
    file.pool.payload edit.textIndex = .ok bytes

/-- Whether the text of an edit fits a constant. -/
def isShort (edit : Edit) : Bool :=
  (ModifiedUtf8.encode edit.value).length ≤ Pool.maxTextLength

theorem isShort_iff : edit.isShort = true ↔
    (ModifiedUtf8.encode edit.value).length ≤ Pool.maxTextLength :=
  decide_eq_true_iff

/-- How edits end whose texts are all that can be wrong: those of one entry after those of another,
the first text that is too long decides. -/
def resultByLength (edits : List Edit) : Except Fault EditSummary :=
  match (grouped edits).find? fun edit => !edit.isShort with
  | some edit => .error (.textTooLong (ModifiedUtf8.encode edit.value).length)
  | none => .ok { entries := (owners edits).length, edits := edits.length }

/-- The results of runs of edits, each over what the one before it left. -/
def resultsOf {α : Type} [Archive α] (archive : α) :
    List (List Edit) → List (Except Fault EditSummary)
  | [] => []
  | edits :: rest =>
    (applyToArchive archive edits).result :: resultsOf (applyToArchive archive edits).archive rest

/-! ## Targets are kept -/

theorem isOk_payload_of_apply {other : Edit} {file file' : ClassFile}
    (h : other.apply file = .ok file') (index : UInt16) :
    (file'.pool.payload index).isOk = (file.pool.payload index).isOk := by
  obtain ⟨hother, rfl⟩ := apply_eq_ok_iff.mp h
  obtain ⟨old, hold⟩ := hother.payload
  have hagrees := Pool.agreesOff_withPayload hold (ModifiedUtf8.encode other.value)
  have hkept := congrArg Except.isOk (hagrees.discard_payload index)
  have hdiscard (outcome : Except Fault Bytes) : (discard outcome).isOk = outcome.isOk := by
    cases outcome <;> rfl
  rwa [hdiscard, hdiscard] at hkept

theorem hasTarget_iff : HasTarget archive edit ↔
    ((archive.class? edit.entry).map fun file => (file.pool.payload edit.textIndex).isOk) =
      some true := by
  rw [Option.map_eq_some_iff]
  constructor
  · rintro ⟨file, bytes, hclass, hpayload⟩
    refine ⟨file, hclass, ?_⟩
    rw [hpayload]
    rfl
  · rintro ⟨file, hclass, hok⟩
    cases hpayload : file.pool.payload edit.textIndex with
    | ok bytes => exact ⟨file, bytes, hclass, hpayload⟩
    | error fault =>
      rw [hpayload] at hok
      cases hok

/-- Whatever a run of edits does, it leaves some entries rewritten and the others as they were. -/
theorem exists_archive_eq_withOwners (archive : MemoryArchive) (edits : List Edit) :
    ∃ rewritten, (applyToArchive archive edits).archive = withOwners archive edits rewritten := by
  have hends := ends_applyToArchive archive edits
  generalize applyToArchive archive edits = outcome at hends ⊢
  cases hends with
  | missing =>
    refine ⟨[], ?_⟩
    simp only [withOwners, List.not_mem_nil, if_false]
    exact MemoryArchive.mapBytes_id.symm
  | stopped => exact ⟨_, rfl⟩
  | done => exact ⟨owners edits, (withOwners_owners archive edits).symm⟩

theorem HasTarget.after (h : HasTarget archive edit) (edits : List Edit) :
    HasTarget (applyToArchive archive edits).archive edit := by
  obtain ⟨rewritten, harchive⟩ := exists_archive_eq_withOwners archive edits
  have hkept : KeptByEdits fun file => (file.pool.payload edit.textIndex).isOk :=
    fun happly => isOk_payload_of_apply happly edit.textIndex
  rw [harchive, hasTarget_iff, hkept.map_class?_withOwners]
  exact hasTarget_iff.mp h

/-! ## One run -/

theorem HasTarget.not_refused {fault : Fault} {file : ClassFile} (h : HasTarget archive edit)
    (hclass : archive.class? edit.entry = some file) (hrefused : edit.Refused file.pool fault) :
    edit.isShort = false ∧ fault = .textTooLong (ModifiedUtf8.encode edit.value).length := by
  obtain ⟨found, bytes, hfound, hpayload⟩ := h
  rw [hclass] at hfound
  cases hfound
  cases hrefused with
  | tooLong hlong =>
    refine ⟨?_, rfl⟩
    rw [← Bool.not_eq_true, isShort_iff]
    exact Nat.not_le.mpr hlong
  | noText _ hslot =>
    have hget := Pool.payload_eq_ok_iff.mp hpayload
    exact absurd (Pool.get_eq_ok_iff.mp hget) (hslot bytes)

theorem isShort_of_rewrites {owner : String} (h : Rewrites archive edits owner) :
    ∀ edit ∈ ofOwner edits owner, edit.isShort = true := by
  intro edit hmem
  obtain ⟨data, file, hget, hread, happlies⟩ := appliesIn_iff.mp (h.appliesIn edit hmem)
  exact isShort_iff.mpr happlies.short

theorem isShort_of_mem_flatMap {owners : List String}
    (h : ∀ owner ∈ owners, Rewrites archive edits owner) :
    ∀ edit ∈ owners.flatMap (ofOwner edits), edit.isShort = true := by
  intro edit hmem
  obtain ⟨owner, howner, hmem⟩ := List.mem_flatMap.mp hmem
  exact isShort_of_rewrites (h owner howner) edit hmem

theorem find?_long_eq_none {edits : List Edit} (h : ∀ edit ∈ edits, edit.isShort = true) :
    (edits.find? fun edit => !edit.isShort) = none := by
  apply List.find?_eq_none.mpr
  intro edit hmem
  rw [h edit hmem]
  exact Bool.false_ne_true

/-- Edits with targets fail only for their lengths. -/
theorem result_of_hasTarget (h : ∀ edit ∈ edits, HasTarget archive edit) :
    (applyToArchive archive edits).result = resultByLength edits := by
  have hends := ends_applyToArchive archive edits
  generalize applyToArchive archive edits = outcome at hends ⊢
  cases hends with
  | @missing front back owner howners hfront hmissing =>
    -- the entry of an edit with a target is there
    have howner : owner ∈ owners edits := howners ▸ List.mem_append_right _ List.mem_cons_self
    obtain ⟨edit, hmem, rfl⟩ := mem_owners_iff.mp howner
    obtain ⟨file, bytes, hclass, _⟩ := h edit hmem
    obtain ⟨data, hget, _⟩ := MemoryArchive.class?_eq_some_iff.mp hclass
    rw [hmissing] at hget
    cases hget
  | @stopped front back owner data fault hpresent howners hfront hget hfault =>
    have howner : owner ∈ owners edits := howners ▸ List.mem_append_right _ List.mem_cons_self
    cases rewritten_eq_error_iff.mp hfault with
    | unread hunread =>
      obtain ⟨edit, hmem, rfl⟩ := mem_owners_iff.mp howner
      obtain ⟨file, bytes, hclass, _⟩ := h edit hmem
      obtain ⟨found, hfound, hread⟩ := MemoryArchive.class?_eq_some_iff.mp hclass
      rw [hget] at hfound
      cases hfound
      rw [hunread] at hread
      cases hread
    | @refused file done rest edit fault hread hgroup hdone hrefused =>
      have hmem : edit ∈ ofOwner edits owner :=
        hgroup ▸ List.mem_append_right _ List.mem_cons_self
      have hclass : archive.class? edit.entry = some file := by
        rw [entry_of_mem_ofOwner hmem]
        exact MemoryArchive.class?_eq_some_iff.mpr ⟨data, hget, hread⟩
      have htarget := h edit (List.mem_filter.mp hmem).1
      obtain ⟨hlong, rfl⟩ := htarget.not_refused hclass hrefused
      -- what is tried before it can be applied, so it is short
      have hfirst : (grouped edits).find? (fun edit => !edit.isShort) = some edit := by
        rw [grouped, howners, List.flatMap_append, List.flatMap_cons, hgroup, List.find?_append,
          find?_long_eq_none (isShort_of_mem_flatMap hfront), Option.none_or,
          List.append_assoc, List.find?_append,
          find?_long_eq_none fun other hmem => isShort_iff.mpr (hdone other hmem).short,
          Option.none_or, List.cons_append, List.find?_cons, hlong]
        rfl
      rw [resultByLength, hfirst]
  | done hall =>
    rw [resultByLength, find?_long_eq_none]
    exact isShort_of_mem_flatMap hall

/-! ## Many runs -/

theorem resultsOf_of_hasTarget {batches : List (List Edit)}
    (h : ∀ edits ∈ batches, ∀ edit ∈ edits, HasTarget archive edit) :
    resultsOf archive batches = batches.map resultByLength := by
  induction batches generalizing archive with
  | nil => rfl
  | cons edits rest ih =>
    obtain ⟨hedits, hrest⟩ := List.forall_mem_cons.mp h
    rw [resultsOf, List.map_cons, result_of_hasTarget hedits, ih]
    intro later hlater edit hmem
    exact (hrest later hlater edit hmem).after edits

theorem hasTarget_of_mem_strings {config : RunConfig} {cancellation : Cancellation}
    {found : FoundString}
    (h : found ∈ (ArchiveScan.run config cancellation archive).report.strings) (value : String) :
    HasTarget archive (found.edit value) := by
  obtain ⟨data, file, bytes, hdata, hread, hpayload⟩ := ArchiveScan.exists_payload_of_mem_strings h
  refine ⟨file, bytes, ?_, hpayload⟩
  exact MemoryArchive.class?_eq_some_iff.mpr ⟨data, MemoryArchive.read_eq_ok_iff.mp hdata, hread⟩

theorem resultByLength_cases (edits : List Edit) :
    (∃ summary, resultByLength edits = .ok summary) ∨
      ∃ length, 65535 < length ∧ resultByLength edits = .error (.textTooLong length) := by
  unfold resultByLength
  cases hfind : (grouped edits).find? fun edit => !edit.isShort with
  | none => exact .inl ⟨_, rfl⟩
  | some edit =>
    have hlong := List.find?_some hfind
    rw [Bool.not_eq_true', ← Bool.not_eq_true, isShort_iff, Nat.not_le] at hlong
    exact .inr ⟨_, hlong, rfl⟩

/-- Runs of edits of listed texts, one after the other and each over what was left before it, succeed
or fail for a text that is too long. Which of the two, and how, is told by the texts of a run alone,
whatever the runs before it did. -/
theorem resultsOf_listed {config : RunConfig} {cancellation : Cancellation}
    {batches : List (List Edit)}
    (h : ∀ edits ∈ batches, ∀ edit ∈ edits,
      ∃ found ∈ (ArchiveScan.run config cancellation archive).report.strings,
        edit = found.edit edit.value) :
    (∀ result ∈ resultsOf archive batches, (∃ summary, result = .ok summary) ∨
      ∃ length, 65535 < length ∧ result = .error (.textTooLong length)) ∧
    resultsOf archive batches = batches.map resultByLength := by
  have hresults : resultsOf archive batches = batches.map resultByLength := by
    apply resultsOf_of_hasTarget
    intro edits hedits edit hmem
    obtain ⟨found, hfound, hedit⟩ := h edits hedits edit hmem
    rw [hedit]
    exact hasTarget_of_mem_strings hfound edit.value
  refine ⟨?_, hresults⟩
  intro result hresult
  rw [hresults] at hresult
  obtain ⟨edits, _, rfl⟩ := List.mem_map.mp hresult
  exact resultByLength_cases edits

theorem length_encode_replicate (count : Nat) :
    (ModifiedUtf8.encode (String.ofList (List.replicate count 'x'))).length = count := by
  have hchar : (ModifiedUtf8.encodeChar 'x').length = 1 := by decide
  rw [ModifiedUtf8.encode, String.toList_ofList, List.length_flatMap, List.map_replicate, hchar,
    List.sum_replicate, smul_eq_mul, Nat.mul_one]

/-- A text of one byte more than fits. -/
def longText : String := String.ofList (List.replicate 65536 'x')

/-- A run that stops at the second of two classes, and one that edits both again. -/
def batchesPastLimit : List (List Edit) :=
  [[⟨"B.class", 6, "x"⟩, ⟨"A.class", 6, longText⟩, ⟨"B.class", 11, ""⟩],
    [⟨"A.class", 6, "y"⟩, ⟨"B.class", 6, "Grüße"⟩]]

theorem resultsOf_batchesPastLimit :
    (∀ edits ∈ batchesPastLimit, ∀ edit ∈ edits,
      ∃ found ∈ (ArchiveScan.run {} (.atEvent 6) twoClasses).report.strings,
        edit = found.edit edit.value) ∧
    resultsOf twoClasses batchesPastLimit =
      [.error (.textTooLong 65536), .ok { entries := 2, edits := 2 }] := by
  have hlisted : ∀ edits ∈ batchesPastLimit, ∀ edit ∈ edits,
      ∃ found ∈ (ArchiveScan.run {} (.atEvent 6) twoClasses).report.strings,
        found.entry = edit.entry ∧ found.textIndex = edit.textIndex := by decide +kernel
  have hedits : ∀ edits ∈ batchesPastLimit, ∀ edit ∈ edits,
      ∃ found ∈ (ArchiveScan.run {} (.atEvent 6) twoClasses).report.strings,
        edit = found.edit edit.value := by
    intro edits hmem edit hedit
    obtain ⟨found, hfound, hentry, hindex⟩ := hlisted edits hmem edit hedit
    refine ⟨found, hfound, ?_⟩
    rw [FoundString.edit, hentry, hindex]
  have hlong : isShort ⟨"A.class", 6, longText⟩ = false := by
    have hlength := length_encode_replicate 65536
    rw [← Bool.not_eq_true, isShort_iff, Nat.not_le]
    exact hlength.symm ▸ Nat.lt_succ_self 65535
  have hgrouped (text : String) :
      grouped [⟨"B.class", 6, "x"⟩, ⟨"A.class", 6, text⟩, ⟨"B.class", 11, ""⟩] =
        [⟨"B.class", 6, "x"⟩, ⟨"B.class", 11, ""⟩, ⟨"A.class", 6, text⟩] := rfl
  have hfirst : resultByLength
      [⟨"B.class", 6, "x"⟩, ⟨"A.class", 6, longText⟩, ⟨"B.class", 11, ""⟩] =
        .error (.textTooLong 65536) := by
    rw [resultByLength, hgrouped, List.find?_cons_of_neg (by decide),
      List.find?_cons_of_neg (by decide), List.find?_cons_of_pos (by rw [hlong]; rfl)]
    exact congrArg (fun length => Except.error (Fault.textTooLong length))
      (length_encode_replicate 65536)
  obtain ⟨_, hresults⟩ := resultsOf_listed hedits
  refine ⟨hedits, hresults.trans ?_⟩
  rw [batchesPastLimit, List.map_cons, hfirst]
  decide +kernel

end JarText.Edit
