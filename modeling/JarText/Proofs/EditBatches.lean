import JarText.Proofs.FailedEdits

/-!
# Edits in batches

Whether an edit can be applied depends on the class that was there at first, and of the edits of one
text the last one stays. So edits may be split into batches, and their order matters among those of
one text in one entry alone. Between two batches every class is written and read back.
-/

set_option autoImplicit false

namespace JarText

open Text

variable {archive : MemoryArchive} {edits others later : List Edit} {edit other : Edit}
  {owner : String} {data new : Bytes} {file file' : ClassFile} {index : UInt16} {fault : Fault}

/-! ## One class -/

namespace Edit

theorem lastText?_append : lastText? (edits ++ later) index =
    (lastText? later index).or (lastText? edits index) := by
  unfold lastText?
  rw [List.filter_append, List.getLast?_append, Option.map_or]

end Edit

/-- A pool with texts is told by the last text of each index. -/
theorem Pool.withTexts_congr {pool : Pool} (hedits : ∀ edit ∈ edits, edit.Applies pool)
    (hothers : ∀ edit ∈ others, edit.Applies pool)
    (h : ∀ index, Edit.lastText? others index = Edit.lastText? edits index) :
    pool.withTexts others = pool.withTexts edits := by
  have hslots : (pool.withTexts others).slots = (pool.withTexts edits).slots := by
    apply Array.ext_getElem?
    intro i
    by_cases hedited : ∃ edit ∈ edits, edit.textIndex.toNat = i
    · obtain ⟨edit, hmem, rfl⟩ := hedited
      have hsome := Edit.isSome_lastText?_iff.mpr ⟨edit, hmem, rfl⟩
      obtain ⟨text, htext⟩ := Option.isSome_iff_exists.mp hsome
      rw [getElem?_withTexts_of_lastText? hedits htext,
        getElem?_withTexts_of_lastText? hothers ((h _).trans htext)]
    · have hkept : ∀ edit ∈ edits, edit.textIndex.toNat ≠ i :=
        fun edit hmem heq => hedited ⟨edit, hmem, heq⟩
      have hkept' : ∀ edit ∈ others, edit.textIndex.toNat ≠ i := by
        rintro other hmem rfl
        have hsome := Edit.isSome_lastText?_iff.mpr ⟨other, hmem, rfl⟩
        rw [h] at hsome
        obtain ⟨edit, hedit, hindex⟩ := Edit.isSome_lastText?_iff.mp hsome
        exact hkept edit hedit (congrArg UInt16.toNat hindex)
      rw [getElem?_withTexts_of_unedited hedits hkept,
        getElem?_withTexts_of_unedited hothers hkept']
  exact congrArg Pool.mk hslots

namespace Edit

/-- Something about a class that no edit changes. -/
def KeptByEdits {β : Type} (f : ClassFile → β) : Prop :=
  ∀ {edit : Edit} {file file' : ClassFile}, edit.apply file = .ok file' → f file' = f file

theorem KeptByEdits.eq_of_patch {β : Type} {f : ClassFile → β} (hf : KeptByEdits f)
    (h : patch file edits = .ok file') : f file' = f file := by
  induction edits generalizing file with
  | nil =>
    cases h
    rfl
  | cons edit edits ih =>
    rw [patch, List.foldlM_cons, except_bind_eq_ok_iff] at h
    obtain ⟨first, hfirst, hrest⟩ := h
    rw [ih hrest, hf hfirst]

/-- Written and read back between two batches, a class has what both give it. -/
theorem rewritten_append (edits later : List Edit) (data : Bytes) :
    rewritten (edits ++ later) data = rewritten edits data >>= rewritten later := by
  cases hread : ClassFile.read data with
  | error fault =>
    rw [rewritten_of_unread hread, rewritten_of_unread hread]
    rfl
  | ok file =>
    rw [rewritten_of_read hread, rewritten_of_read hread, patch_append]
    cases hpatch : patch file edits with
    | error fault => rfl
    | ok file' =>
      simp only [Except.map, bind, Except.bind]
      exact (rewritten_of_read (read_write_of_patch hread hpatch)).symm

/-- A class that has the edits already is not changed by them. -/
theorem rewritten_self (h : rewritten edits data = .ok new) : rewritten edits new = .ok new := by
  obtain ⟨file, hread, happlies, hnew⟩ := rewritten_eq_ok_iff.mp h
  have htwice : ∀ edit ∈ edits ++ edits, edit.Applies file.pool :=
    List.forall_mem_append.mpr ⟨happlies, happlies⟩
  have hpool : file.pool.withTexts (edits ++ edits) = file.pool.withTexts edits := by
    apply Pool.withTexts_congr happlies htwice
    intro index
    rw [lastText?_append, Option.or_self]
  have hboth : rewritten (edits ++ edits) data = .ok new := by
    rw [rewritten_eq_ok_iff]
    exact ⟨file, hread, htwice, by rw [hpool, hnew]⟩
  rw [rewritten_append, h] at hboth
  exact hboth

theorem rewritten_newBytes : rewritten (ofOwner edits owner) (newBytes edits owner data) =
    rewritten (ofOwner edits owner) data := by
  cases hnew : rewritten (ofOwner edits owner) data with
  | error fault =>
    rw [newBytes, hnew]
    exact hnew
  | ok new =>
    rw [newBytes_of_rewritten hnew]
    exact rewritten_self hnew

theorem newBytes_newBytes :
    newBytes edits owner (newBytes edits owner data) = newBytes edits owner data := by
  rw [newBytes, rewritten_newBytes, newBytes]
  cases rewritten (ofOwner edits owner) data <;> rfl

/-! ## Between two runs -/

theorem read_newBytes (edits : List Edit) (owner : String)
    (hread : ClassFile.read data = .ok file) :
    ∃ group file', patch file group = .ok file' ∧
      ClassFile.read (newBytes edits owner data) = .ok file' := by
  cases hpatch : patch file (ofOwner edits owner) with
  | error fault =>
    have hkept : newBytes edits owner data = data := by
      rw [newBytes, rewritten_of_read hread, hpatch]
      rfl
    rw [hkept]
    exact ⟨[], file, rfl, hread⟩
  | ok file' =>
    have hnew : rewritten (ofOwner edits owner) data = .ok file'.write := by
      rw [rewritten_of_read hread, hpatch]
      rfl
    refine ⟨ofOwner edits owner, file', hpatch, ?_⟩
    rw [newBytes_of_rewritten hnew, read_write_of_patch hread hpatch]

/-- What no edit changes in a class, a run does not change in an entry, rewritten or not. -/
theorem KeptByEdits.map_class?_withOwners {β : Type} {f : ClassFile → β} (hf : KeptByEdits f)
    (archive : MemoryArchive) (edits : List Edit) (owners : List String) (name : String) :
    ((withOwners archive edits owners).class? name).map f = (archive.class? name).map f := by
  rw [MemoryArchive.class?, MemoryArchive.class?, withOwners, MemoryArchive.get?_mapBytes]
  cases archive.get? name with
  | none => rfl
  | some data =>
    rw [Option.map_some, Option.bind_some, Option.bind_some]
    split
    · cases hread : ClassFile.read data with
      | error fault => rw [newBytes_of_unread hread, hread]
      | ok file =>
        obtain ⟨group, file', hpatch, hread'⟩ := read_newBytes edits name hread
        rw [hread']
        exact congrArg some (hf.eq_of_patch hpatch)
    · rfl

theorem appliesIn_withOwners (owners : List String) :
    edit.appliesIn (withOwners archive edits owners) = edit.appliesIn archive := by
  have hkept : KeptByEdits fun file => (edit.apply file).isOk := isOk_apply_of_apply
  have hclass := hkept.map_class?_withOwners archive edits owners edit.entry
  have hany := congrArg (Option.any id) hclass
  rw [Option.any_map, Option.any_map] at hany
  exact hany

theorem warningsIn_withOwners (owners : List String) :
    edit.warningsIn (withOwners archive edits owners) = edit.warningsIn archive := by
  have hkept : KeptByEdits edit.warnings := warnings_of_apply
  have hclass := hkept.map_class?_withOwners archive edits owners edit.entry
  have helim := congrArg (Option.elim · [] id) hclass
  simp only [Option.elim_map] at helim
  exact helim

theorem withOwners_withOwners (owners : List String) :
    withOwners (withOwners archive edits owners) edits owners =
      withOwners archive edits owners := by
  rw [withOwners, withOwners, MemoryArchive.mapBytes_mapBytes]
  apply MemoryArchive.mapBytes_congr
  intro name data _
  split
  · exact newBytes_newBytes
  · rfl

theorem rewrites_withOwners (owners : List String) (h : Rewrites archive edits owner) :
    Rewrites (withOwners archive edits owners) edits owner := by
  obtain ⟨data, new, hget, hnew⟩ := h
  by_cases howner : owner ∈ owners
  · refine ⟨_, new, ?_, rewritten_newBytes.trans hnew⟩
    rw [get?_withOwners_of_mem howner, hget, Option.map_some]
  · exact ⟨data, new, (get?_withOwners_of_notMem howner).trans hget, hnew⟩

theorem saidOf_withOwners (owners : List String) (tried : List Edit) :
    saidOf (withOwners archive edits owners) tried = saidOf archive tried :=
  saidOf_congr (fun _ _ => appliesIn_withOwners owners) fun _ _ => warningsIn_withOwners owners

/-- Edits that are made again end as they did at first and change nothing more. -/
theorem applyToArchive_twice (archive : MemoryArchive) (edits : List Edit) :
    applyToArchive (applyToArchive archive edits).archive edits = applyToArchive archive edits := by
  have hends := ends_applyToArchive archive edits
  generalize houtcome : applyToArchive archive edits = outcome at hends ⊢
  cases hends with
  | missing howners hfront hmissing => exact houtcome
  | @stopped front back owner data fault hpresent howners hfront hget hfault =>
    have hpresent' : ∀ owner ∈ owners edits,
        ((withOwners archive edits front).get? owner).isSome := by
      intro other hother
      rw [withOwners, MemoryArchive.get?_mapBytes, Option.isSome_map]
      exact hpresent other hother
    obtain ⟨_, hfresh⟩ := nodup_of_owners_eq howners
    have hfront' := fun other hother => rewrites_withOwners front (hfront other hother)
    have hget' : (withOwners archive edits front).get? owner = some data :=
      (get?_withOwners_of_notMem hfresh).trans hget
    rw [applyToArchive_stopped hpresent' howners hfront' hget' hfault, withOwners_withOwners,
      saidOf_withOwners]
  | done h =>
    have hall := fun owner hmem => rewrites_withOwners (owners edits) (h owner hmem)
    rw [← withOwners_owners, applyToArchive_done hall, ← withOwners_owners, withOwners_withOwners,
      saidOf_withOwners]

/-! ## Success -/

/-- All edits are applied. -/
def Succeeds (archive : MemoryArchive) (edits : List Edit) : Prop :=
  (applyToArchive archive edits).result.isOk = true

theorem succeeds_iff_rewrites : Succeeds archive edits ↔
    ∀ owner ∈ owners edits, Rewrites archive edits owner := by
  constructor
  · intro h
    cases hresult : (applyToArchive archive edits).result with
    | error fault =>
      rw [Succeeds, hresult] at h
      cases h
    | ok summary => exact rewritten_of_applyToArchive hresult
  · intro h
    rw [Succeeds, applyToArchive_done h]
    rfl

/-- Edits succeed together if each could be applied alone. -/
theorem succeeds_iff_appliesIn : Succeeds archive edits ↔
    ∀ edit ∈ edits, edit.appliesIn archive = true := by
  rw [succeeds_iff_rewrites]
  constructor
  · intro h edit hmem
    exact (h edit.entry (mem_owners_iff.mpr ⟨edit, hmem, rfl⟩)).appliesIn edit
      (List.mem_filter.mpr ⟨hmem, beq_self_eq_true _⟩)
  · intro h owner howner
    exact rewrites_of_appliesIn howner fun edit hmem => h edit (List.mem_filter.mp hmem).1

theorem archive_of_succeeds (h : Succeeds archive edits) :
    (applyToArchive archive edits).archive = archive.mapBytes (newBytes edits) :=
  congrArg EditOutcome.archive (applyToArchive_done (succeeds_iff_rewrites.mp h))

theorem result_of_succeeds (h : Succeeds archive edits) :
    (applyToArchive archive edits).result =
      .ok { entries := (owners edits).length, edits := edits.length } :=
  congrArg EditOutcome.result (applyToArchive_done (succeeds_iff_rewrites.mp h))

theorem exists_rewritten (h : Succeeds archive edits) (howner : owner ∈ owners edits)
    (hget : archive.get? owner = some data) :
    ∃ new, rewritten (ofOwner edits owner) data = .ok new := by
  obtain ⟨data', new, hdata, hnew⟩ := succeeds_iff_rewrites.mp h owner howner
  rw [hget] at hdata
  cases hdata
  exact ⟨new, hnew⟩

/-! ## Two batches -/

/-- The edits that can be applied after a run are those that could be applied before it. -/
theorem succeeds_after : Succeeds (applyToArchive archive edits).archive later ↔
    Succeeds archive later := by
  obtain ⟨owners, howners⟩ : ∃ owners,
      (applyToArchive archive edits).archive = withOwners archive edits owners := by
    have hends := ends_applyToArchive archive edits
    generalize applyToArchive archive edits = outcome at hends
    cases hends with
    | missing => exact ⟨[], (MemoryArchive.mapBytes_id).symm⟩
    | stopped => exact ⟨_, rfl⟩
    | done => exact ⟨_, (withOwners_owners archive edits).symm⟩
  simp only [howners, succeeds_iff_appliesIn, appliesIn_withOwners]

theorem newBytes_append (h : Succeeds archive (edits ++ later))
    (hget : archive.get? owner = some data) :
    newBytes (edits ++ later) owner data = newBytes later owner (newBytes edits owner data) := by
  have happend : ofOwner (edits ++ later) owner = ofOwner edits owner ++ ofOwner later owner :=
    List.filter_append edits later
  by_cases howner : owner ∈ owners (edits ++ later)
  · obtain ⟨new, hnew⟩ := exists_rewritten h howner hget
    rw [newBytes_of_rewritten hnew]
    rw [happend, rewritten_append, except_bind_eq_ok_iff] at hnew
    obtain ⟨first, hfirst, hlater⟩ := hnew
    rw [newBytes_of_rewritten hfirst, newBytes_of_rewritten hlater]
  · have hnone := ofOwner_eq_nil_of_notMem howner
    rw [newBytes_of_ofOwner_eq_nil hnone]
    rw [happend, List.append_eq_nil_iff] at hnone
    rw [newBytes_of_ofOwner_eq_nil hnone.1, newBytes_of_ofOwner_eq_nil hnone.2]

/-! ## Another order -/

/-- The edits in another order, in which those of one text in one entry have kept theirs. -/
structure Reorders (edits others : List Edit) : Prop where
  perm : edits.Perm others
  keeps : ∀ owner index,
    (others.filter fun edit => edit.entry == owner && edit.textIndex == index) =
      edits.filter fun edit => edit.entry == owner && edit.textIndex == index

/-- Two neighbours that are not of one text in one entry may change places. -/
theorem Reorders.swap (front : List Edit) {back : List Edit}
    (h : edit.entry ≠ other.entry ∨ edit.textIndex ≠ other.textIndex) :
    Reorders (front ++ edit :: other :: back) (front ++ other :: edit :: back) where
  perm := (List.Perm.swap other edit back).append_left front
  keeps := by
    intro owner index
    simp only [List.filter_append, List.filter_cons, Bool.and_eq_true, beq_iff_eq]
    split
    · rename_i hother
      have hedit : ¬ (edit.entry = owner ∧ edit.textIndex = index) := by
        rintro ⟨hentry, hindex⟩
        rcases h with hne | hne
        · exact hne (hentry.trans hother.1.symm)
        · exact hne (hindex.trans hother.2.symm)
      rw [if_neg hedit, if_neg hedit]
    · rfl

theorem Reorders.succeeds_iff (h : Reorders edits others) :
    Succeeds archive others ↔ Succeeds archive edits := by
  simp only [succeeds_iff_appliesIn, h.perm.mem_iff]

theorem Reorders.lastText?_ofOwner (h : Reorders edits others) (owner : String) (index : UInt16) :
    lastText? (ofOwner others owner) index = lastText? (ofOwner edits owner) index := by
  simp only [lastText?, ofOwner, List.filter_filter, Bool.and_comm, h.keeps]

theorem Reorders.mem_owners_iff (h : Reorders edits others) :
    owner ∈ owners others ↔ owner ∈ owners edits := by
  simp only [Edit.mem_owners_iff, h.perm.mem_iff]

theorem Reorders.newBytes_eq (h : Reorders edits others) (hsucceeds : Succeeds archive edits)
    (hget : archive.get? owner = some data) :
    newBytes others owner data = newBytes edits owner data := by
  by_cases howner : owner ∈ owners edits
  · obtain ⟨new, hnew⟩ := exists_rewritten hsucceeds howner hget
    obtain ⟨new', hnew'⟩ :=
      exists_rewritten (h.succeeds_iff.mpr hsucceeds) (h.mem_owners_iff.mpr howner) hget
    obtain ⟨file, hread, happlies, rfl⟩ := rewritten_eq_ok_iff.mp hnew
    obtain ⟨file', hread', happlies', rfl⟩ := rewritten_eq_ok_iff.mp hnew'
    rw [hread] at hread'
    cases hread'
    rw [newBytes_of_rewritten hnew, newBytes_of_rewritten hnew',
      Pool.withTexts_congr happlies happlies' (h.lastText?_ofOwner owner)]
  · have howner' := fun hmem => howner (h.mem_owners_iff.mp hmem)
    rw [newBytes_of_ofOwner_eq_nil (ofOwner_eq_nil_of_notMem howner),
      newBytes_of_ofOwner_eq_nil (ofOwner_eq_nil_of_notMem howner')]

theorem Reorders.summary_eq (h : Reorders edits others) :
    (owners others).length = (owners edits).length ∧ others.length = edits.length := by
  refine ⟨?_, h.perm.length_eq.symm⟩
  rw [length_owners, length_owners, List.toFinset_eq_of_perm _ _ (h.perm.map (·.entry))]

/-- Edits succeed together if each could be made alone, and two batches do what one does. Edits of
one text in one entry keep their order, all others may change theirs. Edits that are made again
change nothing more. -/
theorem applyToArchive_batches (archive : MemoryArchive) (edits later : List Edit) :
    (Succeeds archive edits ↔ ∀ edit ∈ edits, ∃ data file, archive.get? edit.entry = some data ∧
      ClassFile.read data = .ok file ∧ edit.Applies file.pool) ∧
    (Succeeds archive (edits ++ later) ↔
      Succeeds archive edits ∧ Succeeds (applyToArchive archive edits).archive later) ∧
    (Succeeds archive (edits ++ later) →
      (applyToArchive (applyToArchive archive edits).archive later).archive =
        (applyToArchive archive (edits ++ later)).archive) ∧
    (∀ others, Reorders edits others →
      (Succeeds archive others ↔ Succeeds archive edits) ∧
      (Succeeds archive edits →
        (applyToArchive archive others).archive = (applyToArchive archive edits).archive ∧
        (applyToArchive archive others).result = (applyToArchive archive edits).result)) ∧
    applyToArchive (applyToArchive archive edits).archive edits = applyToArchive archive edits := by
  have hbatches : Succeeds archive (edits ++ later) ↔
      Succeeds archive edits ∧ Succeeds (applyToArchive archive edits).archive later := by
    rw [succeeds_after]
    simp only [succeeds_iff_appliesIn, List.forall_mem_append]
  refine ⟨?_, hbatches, ?_, ?_, applyToArchive_twice archive edits⟩
  · rw [succeeds_iff_appliesIn]
    simp only [appliesIn_iff]
  · intro hboth
    obtain ⟨hedits, hlater⟩ := hbatches.mp hboth
    rw [archive_of_succeeds hlater, archive_of_succeeds hboth, archive_of_succeeds hedits,
      MemoryArchive.mapBytes_mapBytes]
    apply MemoryArchive.mapBytes_congr
    intro name data hget
    exact (newBytes_append hboth hget).symm
  · intro others hreorders
    refine ⟨hreorders.succeeds_iff, ?_⟩
    intro hedits
    have hothers := hreorders.succeeds_iff.mpr hedits
    constructor
    · rw [archive_of_succeeds hothers, archive_of_succeeds hedits]
      apply MemoryArchive.mapBytes_congr
      intro name data hget
      exact hreorders.newBytes_eq hedits hget
    · obtain ⟨hentries, hcount⟩ := hreorders.summary_eq
      rw [result_of_succeeds hothers, result_of_succeeds hedits, hentries, hcount]

/-- The first two edits of the classes in turn have changed places. -/
def editsSwapped : List Edit :=
  [⟨"A.class", 11, ""⟩, ⟨"B.class", 6, "x"⟩, ⟨"B.class", 11, "y"⟩, ⟨"B.class", 6, "Grüße"⟩]

theorem applyToArchive_batches_in_turn :
    (applyToArchive (applyToArchive twoClasses (editsInTurn.take 2)).archive
        (editsInTurn.drop 2)).archive = (applyToArchive twoClasses editsInTurn).archive ∧
      (applyToArchive twoClasses editsSwapped).archive =
        (applyToArchive twoClasses editsInTurn).archive ∧
      (applyToArchive twoClasses editsSwapped).result = .ok ⟨2, 4⟩ := by
  have hok : (applyToArchive twoClasses editsInTurn).result = .ok ⟨2, 4⟩ := by decide +kernel
  have hsucceeds : Succeeds twoClasses editsInTurn := by
    rw [Succeeds, hok]
    rfl
  obtain ⟨_, _, hbatches, _⟩ :=
    applyToArchive_batches twoClasses (editsInTurn.take 2) (editsInTurn.drop 2)
  obtain ⟨_, _, _, horder, _⟩ := applyToArchive_batches twoClasses editsInTurn []
  have hswap : Reorders editsInTurn editsSwapped :=
    Reorders.swap [] (.inl (by decide))
  obtain ⟨harchive, hresult⟩ := (horder editsSwapped hswap).2 hsucceeds
  exact ⟨hbatches hsucceeds, harchive, hresult.trans hok⟩

end Edit

end JarText
