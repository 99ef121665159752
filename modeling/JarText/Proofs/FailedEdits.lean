import JarText.Proofs.EditEffects

/-!
# Edits that fail

A run of edits fails for the first entry that is missing, or else for the first one whose class
cannot be read or refuses an edit, and then with the first fault of that entry. No entry is left
between its old and its new bytes.
-/

set_option autoImplicit false

namespace JarText

open Text

namespace Edit

variable {archive : MemoryArchive} {edit : Edit} {edits group : List Edit} {data : Bytes}
  {file : ClassFile} {pool pool' : Pool} {fault : Fault} {owner : String}

/-- A class with this pool refuses the edit: its text is too long, or the slot holds no text. -/
inductive Refused (edit : Edit) (pool : Pool) : Fault → Prop where
  | tooLong (h : 65535 < (ModifiedUtf8.encode edit.value).length) :
      Refused edit pool (.textTooLong (ModifiedUtf8.encode edit.value).length)
  | noText (hshort : (ModifiedUtf8.encode edit.value).length ≤ 65535)
      (h : ∀ bytes, pool.slots[edit.textIndex.toNat]? ≠ some (some (.utf8 bytes))) :
      Refused edit pool (.badReference edit.textIndex .utf8)

/-- The first fault of an entry with these bytes: its class cannot be read, or all edits before one
can be applied and that one is refused. -/
inductive FirstFault (data : Bytes) (group : List Edit) : Fault → Prop where
  | unread {fault : Fault} (h : ClassFile.read data = .error fault) : FirstFault data group fault
  | refused {file : ClassFile} {done rest : List Edit} {edit : Edit} {fault : Fault}
      (hread : ClassFile.read data = .ok file) (hgroup : group = done ++ edit :: rest)
      (hdone : ∀ other ∈ done, other.Applies file.pool) (h : edit.Refused file.pool fault) :
      FirstFault data group fault

theorem apply_eq_error_iff : edit.apply file = .error fault ↔ edit.Refused file.pool fault := by
  unfold apply
  rw [except_bind_eq_error_iff, Pool.setText_eq_error_iff]
  constructor
  · rintro ((⟨hlong, rfl⟩ | ⟨hshort, hslot, rfl⟩) | ⟨pool, _, hpure⟩)
    · exact .tooLong hlong
    · exact .noText hshort hslot
    · cases hpure
  · intro h
    cases h with
    | tooLong hlong => exact .inl (.inl ⟨hlong, rfl⟩)
    | noText hshort hslot => exact .inl (.inr ⟨hshort, hslot, rfl⟩)

/-- Why an edit is refused does not depend on the texts of the pool. -/
theorem Refused.of_agreesOff {edited : UInt16 → Prop} (h : edit.Refused pool fault)
    (hagrees : pool.AgreesOff edited pool') : edit.Refused pool' fault := by
  cases h with
  | tooLong hlong => exact .tooLong hlong
  | noText hshort hslot =>
    refine .noText hshort ?_
    intro bytes hbytes
    obtain ⟨old, hold⟩ := hagrees.symm.exists_payload
      (Pool.payload_eq_ok_iff.mpr (Pool.get_eq_ok_iff.mpr hbytes))
    exact hslot old (Pool.get_eq_ok_iff.mp (Pool.payload_eq_ok_iff.mp hold))

theorem patch_eq_error_iff : patch file group = .error fault ↔
    ∃ done edit rest, group = done ++ edit :: rest ∧ (∀ other ∈ done, other.Applies file.pool) ∧
      edit.Refused file.pool fault := by
  constructor
  · intro h
    rcases forall_or_exists_first (fun edit : Edit => edit.Applies file.pool) group with
      hall | ⟨done, edit, rest, rfl, hdone, hnot⟩
    · rw [patch_eq_ok_iff.mpr ⟨hall, rfl⟩] at h
      cases h
    · refine ⟨done, edit, rest, rfl, hdone, ?_⟩
      have hagrees := (Pool.withTexts_becomes hdone).agrees
      rw [patch_append, patch_eq_ok_iff.mpr ⟨hdone, rfl⟩] at h
      change patch { file with pool := file.pool.withTexts done } (edit :: rest) = _ at h
      rw [patch, List.foldlM_cons] at h
      cases hedit : edit.apply { file with pool := file.pool.withTexts done } with
      | ok file' =>
        exact absurd ((apply_eq_ok_iff.mp hedit).1.of_agreesOff hagrees.symm) hnot
      | error found =>
        rw [hedit] at h
        cases h
        exact (apply_eq_error_iff.mp hedit).of_agreesOff hagrees.symm
  · rintro ⟨done, edit, rest, rfl, hdone, hedit⟩
    have hagrees := (Pool.withTexts_becomes hdone).agrees
    have hrefused : edit.apply { file with pool := file.pool.withTexts done } = .error fault :=
      apply_eq_error_iff.mpr (hedit.of_agreesOff hagrees)
    rw [patch_append, patch_eq_ok_iff.mpr ⟨hdone, rfl⟩]
    change patch { file with pool := file.pool.withTexts done } (edit :: rest) = _
    rw [patch, List.foldlM_cons, hrefused]
    rfl

theorem rewritten_eq_error_iff : rewritten group data = .error fault ↔
    FirstFault data group fault := by
  unfold rewritten
  simp only [except_bind_eq_error_iff, patch_eq_error_iff]
  constructor
  · rintro (hread | ⟨file, hread, ⟨done, edit, rest, hgroup, hdone, hedit⟩ | ⟨_, _, hpure⟩⟩)
    · exact .unread hread
    · exact .refused hread hgroup hdone hedit
    · cases hpure
  · intro h
    cases h with
    | unread hread => exact .inl hread
    | refused hread hgroup hdone hedit =>
      exact .inr ⟨_, hread, .inl ⟨_, _, _, hgroup, hdone, hedit⟩⟩

/-- What is left of an entry whose edits could be applied. -/
theorem Rewrites.effect (h : Rewrites archive edits owner) : ∃ data file file',
    archive.get? owner = some data ∧ ClassFile.read data = .ok file ∧
      patch file (ofOwner edits owner) = .ok file' ∧ newBytes edits owner data = file'.write ∧
      file.EditedBy (ofOwner edits owner) file' := by
  obtain ⟨data, new, hget, hnew⟩ := h
  obtain ⟨file, hread, happlies, rfl⟩ := rewritten_eq_ok_iff.mp hnew
  have hpatch := patch_eq_ok_iff.mpr ⟨happlies, rfl⟩
  exact ⟨data, file, _, hget, hread, hpatch, newBytes_of_rewritten hnew, editedBy_of_patch hpatch⟩

/-- Edits that fail leave every entry with its old bytes or with all of its edits. Either an entry
is missing, the fault names the first such entry and nothing is changed; or the fault is the first
one of some entry, the entries named before it have their new bytes, and all others their old
ones. -/
theorem applyToArchive_failure (h : (applyToArchive archive edits).result = .error fault) :
    (applyToArchive archive edits).archive.names = archive.names ∧
    ∃ front owner back, owners edits = front ++ owner :: back ∧
      (((∀ other ∈ front, archive.contains other = true) ∧ archive.contains owner = false ∧
          fault = .entryMissing owner ∧ (applyToArchive archive edits).archive = archive) ∨
        ((∀ edit ∈ edits, archive.contains edit.entry = true) ∧
          (∃ data, archive.get? owner = some data ∧
            FirstFault data (edits.filter (·.entry == owner)) fault) ∧
          (∀ other ∈ front, ∃ data file file', archive.get? other = some data ∧
            ClassFile.read data = .ok file ∧
            patch file (edits.filter (·.entry == other)) = .ok file' ∧
            (applyToArchive archive edits).archive.get? other = some file'.write ∧
            file.EditedBy (edits.filter (·.entry == other)) file') ∧
          ∀ name, name ∉ front →
            (applyToArchive archive edits).archive.get? name = archive.get? name)) := by
  have hends := ends_applyToArchive archive edits
  generalize applyToArchive archive edits = outcome at h hends ⊢
  cases hends with
  | done => cases h
  | @missing front back owner howners hfront hmissing =>
    cases h
    refine ⟨rfl, front, owner, back, howners, .inl ⟨hfront, ?_, rfl, rfl⟩⟩
    rw [MemoryArchive.contains, hmissing]
    rfl
  | @stopped front back owner data found hpresent howners hfront hget hfault =>
    cases h
    refine ⟨MemoryArchive.names_mapBytes _, front, owner, back, howners,
      .inr ⟨?_, ⟨data, hget, rewritten_eq_error_iff.mp hfault⟩, ?_, ?_⟩⟩
    · intro edit hmem
      exact hpresent edit.entry (mem_owners_iff.mpr ⟨edit, hmem, rfl⟩)
    · intro other hmem
      obtain ⟨data', file, file', hget', hread, hpatch, hnew, heffect⟩ :=
        (hfront other hmem).effect
      refine ⟨data', file, file', hget', hread, hpatch, ?_, heffect⟩
      rw [get?_withOwners_of_mem hmem, hget', Option.map_some, hnew]
    · intro name hname
      exact get?_withOwners_of_notMem hname

/-- Edits of two classes in turn, the last of them for a slot that holds no text. -/
def editsUpToString : List Edit :=
  [⟨"B.class", 6, "x"⟩, ⟨"A.class", 6, "y"⟩, ⟨"B.class", 11, "z"⟩, ⟨"A.class", 7, "w"⟩]

/-- The class that was named first has both of its edits, the other has none. -/
theorem applyToArchive_failure_at_string :
    (applyToArchive twoClasses editsUpToString).result = .error (.badReference 7 .utf8) ∧
      (applyToArchive twoClasses editsUpToString).archive.get? "A.class" =
        some ClassFile.specimenBytes ∧
      (applyToArchive twoClasses editsUpToString).archive.get? "notes.txt" = some [72, 105] ∧
      ∃ file : ClassFile,
        (applyToArchive twoClasses editsUpToString).archive.get? "B.class" = some file.write ∧
        file.pool.slots[6]? = some (some (.utf8 (ModifiedUtf8.encode "x"))) ∧
        file.pool.slots[11]? = some (some (.utf8 (ModifiedUtf8.encode "z"))) := by
  have herror : (applyToArchive twoClasses editsUpToString).result =
      .error (.badReference 7 .utf8) := by decide +kernel
  have howners : owners editsUpToString = ["B.class", "A.class"] := by decide
  have hfirst : (rewritten (ofOwner editsUpToString "B.class") ClassFile.specimenBytes).isOk =
      true := by decide +kernel
  obtain ⟨_, front, owner, back, hsplit, hcase⟩ := applyToArchive_failure herror
  rw [howners] at hsplit
  rcases hcase with ⟨_, _, hmissing, _⟩ | ⟨_, ⟨data, hget, hfault⟩, hfront, hothers⟩
  · cases hmissing
  · -- the class named first is not the one that fails
    have hnames : front = ["B.class"] := by
      cases front with
      | nil =>
        obtain rfl : "B.class" = owner := (List.cons.inj hsplit).1
        obtain rfl : ClassFile.specimenBytes = data := Option.some.inj hget
        have hfault' := rewritten_eq_error_iff.mpr hfault
        rw [ofOwner, hfault'] at hfirst
        cases hfirst
      | cons first front =>
        obtain ⟨rfl, htail⟩ := List.cons.inj hsplit
        cases front with
        | nil => rfl
        | cons second front =>
          obtain ⟨_, hnil⟩ := List.cons.inj htail
          cases front <;> cases hnil
    subst hnames
    refine ⟨herror, hothers "A.class" (by decide), hothers "notes.txt" (by decide), ?_⟩
    obtain ⟨_, _, file', _, _, _, hnew, heffect⟩ := hfront "B.class" List.mem_cons_self
    exact ⟨file', hnew, (heffect.edited 6 "x" (by decide)).2, (heffect.edited 11 "z" (by decide)).2⟩

end Edit

end JarText
