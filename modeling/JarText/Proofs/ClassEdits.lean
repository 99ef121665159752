import JarText.Proofs.TextSplice

/-!
# The edits of one class

Edits are applied to a class exactly when each of them could be applied alone, and all that they do
is put their texts into the pool. Of several edits of one index the last stays, and nothing but the
texts at the edited indices is changed.
-/

set_option autoImplicit false

namespace JarText

open Text

/-- The edit could be applied to a class with this pool. -/
structure Edit.Applies (edit : Edit) (pool : Pool) : Prop where
  short : (ModifiedUtf8.encode edit.value).length ≤ Pool.maxTextLength
  payload : ∃ bytes, pool.payload edit.textIndex = .ok bytes

namespace Pool

variable {pool pool' pool'' : Pool} {edited edited' : UInt16 → Prop} {index : UInt16}
  {edit : Edit} {edits : List Edit}

theorem AgreesOff.mono (h : AgreesOff edited pool pool') (hsub : ∀ i, edited i → edited' i) :
    AgreesOff edited' pool pool' := by
  intro i
  rcases h i with heq | ⟨hi, hbytes⟩
  · exact .inl heq
  · exact .inr ⟨hsub i hi, hbytes⟩

theorem AgreesOff.symm (h : AgreesOff edited pool pool') : AgreesOff edited pool' pool := by
  intro i
  rcases h i with heq | ⟨hi, bytes, bytes', hget, hget'⟩
  · exact .inl heq.symm
  · exact .inr ⟨hi, bytes', bytes, hget', hget⟩

theorem AgreesOff.trans (h : AgreesOff edited pool pool') (h' : AgreesOff edited pool' pool'') :
    AgreesOff edited pool pool'' := by
  intro i
  rcases h i with heq | ⟨hi, bytes, bytes', hget, hget'⟩
  · rw [← heq]
    exact h' i
  · rcases h' i with heq | ⟨_, _, bytes'', _, hget''⟩
    · exact .inr ⟨hi, bytes, bytes', hget, heq.trans hget'⟩
    · exact .inr ⟨hi, bytes, bytes'', hget, hget''⟩

theorem AgreesOff.exists_payload (h : AgreesOff edited pool pool') {bytes : Bytes}
    (hpayload : pool.payload index = .ok bytes) : ∃ bytes', pool'.payload index = .ok bytes' := by
  rcases h index with heq | ⟨_, _, bytes', _, hget'⟩
  · exact ⟨bytes, payload_eq_ok_iff.mpr (heq.trans (payload_eq_ok_iff.mp hpayload))⟩
  · exact ⟨bytes', payload_eq_ok_iff.mpr hget'⟩

theorem agreesOff_withPayload {old : Bytes} (h : pool.payload index = .ok old) (bytes : Bytes) :
    AgreesOff (· = index) pool (pool.withPayload index bytes) := by
  intro i
  by_cases hi : i = index
  · subst hi
    exact .inr ⟨rfl, old, bytes, payload_eq_ok_iff.mp h,
      payload_eq_ok_iff.mp (payload_withPayload h)⟩
  · left
    have hslot : (pool.withPayload index bytes).slots[i.toNat]? = _ :=
      getElem?_withPayload h i.toNat
    rw [if_neg fun hnat => hi (UInt16.toNat_inj.mp hnat)] at hslot
    rw [get, get, hslot]

def withTexts (pool : Pool) (edits : List Edit) : Pool :=
  edits.foldl (fun pool edit => pool.withPayload edit.textIndex (ModifiedUtf8.encode edit.value))
    pool

end Pool

namespace Edit

def lastText? (edits : List Edit) (index : UInt16) : Option String :=
  (edits.filter (·.textIndex == index)).getLast?.map (·.value)

variable {edit : Edit} {edits : List Edit} {index : UInt16}

theorem lastText?_cons : lastText? (edit :: edits) index =
    (lastText? edits index).or (if edit.textIndex = index then some edit.value else none) := by
  unfold lastText?
  by_cases hindex : edit.textIndex = index
  · rw [List.filter_cons_of_pos (by simpa using hindex), List.getLast?_cons, if_pos hindex]
    cases (edits.filter (·.textIndex == index)).getLast? <;> rfl
  · rw [List.filter_cons_of_neg (by simpa using hindex), if_neg hindex, Option.or_none]

theorem isSome_lastText?_iff :
    (lastText? edits index).isSome ↔ ∃ edit ∈ edits, edit.textIndex = index := by
  rw [lastText?, Option.isSome_map, List.getLast?_isSome, ne_eq, List.filter_eq_nil_iff]
  simp

theorem Applies.of_agreesOff {edited : UInt16 → Prop} {pool pool' : Pool} (h : edit.Applies pool)
    (hagrees : pool.AgreesOff edited pool') : edit.Applies pool' where
  short := h.short
  payload := by
    obtain ⟨bytes, hpayload⟩ := h.payload
    exact hagrees.exists_payload hpayload

end Edit

namespace Pool

structure Becomes (news : UInt16 → Option String) (pool pool' : Pool) : Prop where
  agrees : AgreesOff (fun i => (news i).isSome) pool pool'
  text_eq : ∀ i value, news i = some value → pool'.text i = .ok value

variable {pool : Pool} {edit : Edit} {edits : List Edit}

theorem Becomes.text_map {news : UInt16 → Option String} {pool' : Pool}
    (h : Becomes news pool pool') (index : UInt16) :
    pool'.text index = (pool.text index).map fun old => (news index).getD old := by
  cases hnew : news index with
  | none =>
    rw [h.agrees.text_eq (by simp [hnew])]
    cases pool.text index <;> rfl
  | some value =>
    have hvalue := h.text_eq index value hnew
    rcases h.agrees index with heq | ⟨_, bytes, _, hget, _⟩
    · rw [hvalue, text, payload, ← heq, ← payload, ← text, hvalue]
      rfl
    · rw [hvalue, text, payload_eq_ok_iff.mpr hget]
      rfl

theorem withTexts_becomes (h : ∀ edit ∈ edits, edit.Applies pool) :
    pool.Becomes (Edit.lastText? edits) (pool.withTexts edits) := by
  induction edits generalizing pool with
  | nil => exact ⟨.refl _ pool, fun i value hnone => by cases hnone⟩
  | cons edit edits ih =>
    obtain ⟨hedit, hrest⟩ := List.forall_mem_cons.mp h
    obtain ⟨old, hpayload⟩ := hedit.payload
    have hfirst := agreesOff_withPayload hpayload (ModifiedUtf8.encode edit.value)
    have hlater := ih fun edit hmem => (hrest edit hmem).of_agreesOff hfirst
    constructor
    · refine (hfirst.mono ?_).trans (hlater.agrees.mono ?_)
      · rintro i rfl
        exact Edit.isSome_lastText?_iff.mpr ⟨edit, List.mem_cons_self, rfl⟩
      · intro i hi
        obtain ⟨later, hmem, hindex⟩ := Edit.isSome_lastText?_iff.mp hi
        exact Edit.isSome_lastText?_iff.mpr ⟨later, List.mem_cons_of_mem _ hmem, hindex⟩
    · intro i value hvalue
      rw [Edit.lastText?_cons] at hvalue
      cases hlast : Edit.lastText? edits i with
      | some last =>
        rw [hlast] at hvalue
        cases hvalue
        exact hlater.text_eq i _ hlast
      | none =>
        -- no later edit of the index: the text of this one is still there
        rw [hlast, Option.none_or] at hvalue
        split at hvalue
        · rename_i hindex
          cases hvalue
          subst hindex
          refine (hlater.agrees.text_eq (by simp [hlast])).trans ?_
          rw [text, payload_withPayload hpayload]
          exact congrArg Except.ok (ModifiedUtf8.decode_encode edit.value)
        · cases hvalue

/-! The slots themselves: an edited one holds the last text, the others are kept. -/

theorem getElem?_withTexts_of_unedited (h : ∀ edit ∈ edits, edit.Applies pool) {i : Nat}
    (hi : ∀ edit ∈ edits, edit.textIndex.toNat ≠ i) :
    (pool.withTexts edits).slots[i]? = pool.slots[i]? := by
  induction edits generalizing pool with
  | nil => rfl
  | cons edit edits ih =>
    obtain ⟨hedit, hrest⟩ := List.forall_mem_cons.mp h
    obtain ⟨hne, hothers⟩ := List.forall_mem_cons.mp hi
    obtain ⟨old, hpayload⟩ := hedit.payload
    have hfirst := agreesOff_withPayload hpayload (ModifiedUtf8.encode edit.value)
    have hlater := ih (fun edit hmem => (hrest edit hmem).of_agreesOff hfirst) hothers
    refine hlater.trans ?_
    rw [getElem?_withPayload hpayload, if_neg (Ne.symm hne)]

theorem getElem?_withTexts_of_lastText? (h : ∀ edit ∈ edits, edit.Applies pool) {index : UInt16}
    {text : String} (htext : Edit.lastText? edits index = some text) :
    (pool.withTexts edits).slots[index.toNat]? =
      some (some (.utf8 (ModifiedUtf8.encode text))) := by
  induction edits generalizing pool with
  | nil => cases htext
  | cons edit edits ih =>
    obtain ⟨hedit, hrest⟩ := List.forall_mem_cons.mp h
    obtain ⟨old, hpayload⟩ := hedit.payload
    have hfirst := agreesOff_withPayload hpayload (ModifiedUtf8.encode edit.value)
    have happlies : ∀ later ∈ edits, later.Applies (pool.withPayload edit.textIndex _) :=
      fun later hmem => (hrest later hmem).of_agreesOff hfirst
    rw [Edit.lastText?_cons] at htext
    cases hlast : Edit.lastText? edits index with
    | some last =>
      rw [hlast] at htext
      cases htext
      exact ih happlies hlast
    | none =>
      rw [hlast, Option.none_or] at htext
      split at htext
      · rename_i hindex
        cases htext
        subst hindex
        have hlater : ∀ later ∈ edits, later.textIndex.toNat ≠ edit.textIndex.toNat := by
          intro later hmem heq
          have hsome := Edit.isSome_lastText?_iff.mpr ⟨later, hmem, UInt16.toNat_inj.mp heq⟩
          rw [hlast] at hsome
          cases hsome
        refine (getElem?_withTexts_of_unedited happlies hlater).trans ?_
        rw [getElem?_withPayload hpayload, if_pos rfl]
      · cases htext

theorem Fits.withTexts (hfits : pool.Fits) (h : ∀ edit ∈ edits, edit.Applies pool) :
    (pool.withTexts edits).Fits := by
  induction edits generalizing pool with
  | nil => exact hfits
  | cons edit edits ih =>
    obtain ⟨hedit, hrest⟩ := List.forall_mem_cons.mp h
    obtain ⟨old, hpayload⟩ := hedit.payload
    have hfirst := agreesOff_withPayload hpayload (ModifiedUtf8.encode edit.value)
    exact ih (hfits.withPayload hpayload (Nat.lt_succ_of_le hedit.short)) fun edit hmem =>
      (hrest edit hmem).of_agreesOff hfirst

end Pool

namespace Edit

variable {file file' : ClassFile} {edit : Edit} {edits : List Edit} {data new : Bytes}

theorem apply_eq_ok_iff : edit.apply file = .ok file' ↔ edit.Applies file.pool ∧
    file' = file.withPayload edit.textIndex (ModifiedUtf8.encode edit.value) := by
  unfold apply
  rw [except_bind_eq_ok_iff]
  simp only [Pool.setText_eq_ok_iff]
  constructor
  · rintro ⟨pool, ⟨hshort, hpayload, rfl⟩, hpure⟩
    cases hpure
    exact ⟨⟨hshort, hpayload⟩, rfl⟩
  · rintro ⟨⟨hshort, hpayload⟩, rfl⟩
    exact ⟨_, ⟨hshort, hpayload, rfl⟩, rfl⟩

/-- A class after edits. -/
def patch (file : ClassFile) (edits : List Edit) : Except Fault ClassFile :=
  edits.foldlM apply file

theorem patch_append (front back : List Edit) :
    patch file (front ++ back) = patch file front >>= fun file' => patch file' back :=
  List.foldlM_append

theorem fst_applyAll (said : List String) : (applyAll file edits said).1 = patch file edits := by
  induction edits generalizing file said with
  | nil => rfl
  | cons edit edits ih =>
    rw [applyAll, patch, List.foldlM_cons]
    cases happly : edit.apply file with
    | error fault => rfl
    | ok file' => exact ih _

theorem patch_eq_ok_iff : patch file edits = .ok file' ↔
    (∀ edit ∈ edits, edit.Applies file.pool) ∧
      file' = { file with pool := file.pool.withTexts edits } := by
  induction edits generalizing file with
  | nil =>
    change Except.ok file = .ok file' ↔ _
    simp [Pool.withTexts, eq_comm]
  | cons edit edits ih =>
    rw [patch, List.foldlM_cons, except_bind_eq_ok_iff, List.forall_mem_cons]
    constructor
    · rintro ⟨first, hfirst, hrest⟩
      obtain ⟨hedit, rfl⟩ := apply_eq_ok_iff.mp hfirst
      obtain ⟨happlies, rfl⟩ := ih.mp hrest
      obtain ⟨old, hpayload⟩ := hedit.payload
      have hagrees := Pool.agreesOff_withPayload hpayload (ModifiedUtf8.encode edit.value)
      refine ⟨⟨hedit, fun later hmem => ?_⟩, rfl⟩
      exact (happlies later hmem).of_agreesOff hagrees.symm
    · rintro ⟨⟨hedit, hrest⟩, rfl⟩
      obtain ⟨old, hpayload⟩ := hedit.payload
      have hagrees := Pool.agreesOff_withPayload hpayload (ModifiedUtf8.encode edit.value)
      refine ⟨_, apply_eq_ok_iff.mpr ⟨hedit, rfl⟩, ih.mpr ⟨fun later hmem => ?_, rfl⟩⟩
      exact (hrest later hmem).of_agreesOff hagrees

end Edit

end JarText
