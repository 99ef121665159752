import JarText.Edit
import JarText.Proofs.PoolCodec

/-!
# Look-ups and new texts

`Pool.setText_eq_ok_iff` says when a text may be put in place of another and what the pool is then.
Two pools agree off some indices if they differ in nothing but the bytes of the texts there.
Whatever goes through no text at such an index is looked up alike in both.
-/

set_option autoImplicit false

namespace JarText.Pool

open Text

variable {pool pool' : Pool} {index : UInt16}

theorem get_eq_ok_iff {constant : Constant} :
    pool.get index = .ok constant ↔ pool.slots[index.toNat]? = some (some constant) := by
  unfold get
  split
  · rename_i found hslot
    simp [hslot]
  · rename_i hslot
    simp only [reduceCtorEq, false_iff]
    exact hslot constant

theorem payload_eq_ok_iff {bytes : Bytes} :
    pool.payload index = .ok bytes ↔ pool.get index = .ok (.utf8 bytes) := by
  unfold payload
  rw [except_bind_eq_ok_iff]
  constructor
  · rintro ⟨constant, hget, h⟩
    cases constant with
    | utf8 found =>
      cases h
      exact hget
    | _ => cases h
  · exact fun hget => ⟨_, hget, rfl⟩

theorem textIndex_eq_ok_iff {target : UInt16} :
    pool.textIndex index = .ok target ↔
      pool.get index = .ok (.string target) ∧ ∃ bytes, pool.payload target = .ok bytes := by
  unfold textIndex
  rw [except_bind_eq_ok_iff]
  constructor
  · rintro ⟨constant, hget, h⟩
    cases constant with
    | string found =>
      obtain ⟨_, hdiscard, hpure⟩ := except_bind_eq_ok_iff.mp h
      cases hpure
      refine ⟨hget, ?_⟩
      cases hpayload : pool.payload target with
      | error fault =>
        rw [hpayload] at hdiscard
        cases hdiscard
      | ok bytes => exact ⟨bytes, rfl⟩
    | _ => cases h
  · rintro ⟨hget, bytes, hbytes⟩
    refine ⟨_, hget, except_bind_eq_ok_iff.mpr ⟨(), ?_, rfl⟩⟩
    rw [hbytes]
    rfl

def withPayload (pool : Pool) (index : UInt16) (bytes : Bytes) : Pool :=
  ⟨pool.slots.setIfInBounds index.toNat (some (.utf8 bytes))⟩

/-- A text is put in place exactly when it is short enough and the slot holds a text. -/
theorem setText_eq_ok_iff {value : String} :
    pool.setText index value = .ok pool' ↔
      (ModifiedUtf8.encode value).length ≤ maxTextLength ∧
        (∃ bytes, pool.payload index = .ok bytes) ∧
        pool' = pool.withPayload index (ModifiedUtf8.encode value) := by
  simp only [payload_eq_ok_iff, get_eq_ok_iff, setText, withPayload]
  by_cases hlength : maxTextLength < (ModifiedUtf8.encode value).length
  · rw [if_pos hlength]
    simp only [reduceCtorEq, false_iff]
    rintro ⟨hle, _⟩
    omega
  · rw [if_neg hlength]
    split
    · rename_i bytes hslot
      simp [hslot, Nat.not_lt.mp hlength, eq_comm]
    · rename_i hslot
      simp only [reduceCtorEq, false_iff]
      rintro ⟨_, ⟨bytes, hbytes⟩, _⟩
      exact hslot bytes hbytes

/-- A text that is too long is refused, and so is any text where the slot holds none. -/
theorem setText_eq_error_iff {value : String} {fault : Fault} :
    pool.setText index value = .error fault ↔
      maxTextLength < (ModifiedUtf8.encode value).length ∧
          fault = .textTooLong (ModifiedUtf8.encode value).length ∨
        (ModifiedUtf8.encode value).length ≤ maxTextLength ∧
          (∀ bytes, pool.slots[index.toNat]? ≠ some (some (.utf8 bytes))) ∧
          fault = .badReference index .utf8 := by
  simp only [setText]
  constructor
  · intro h
    split at h
    · rename_i hlong
      cases h
      exact .inl ⟨hlong, rfl⟩
    · rename_i hshort
      split at h
      · cases h
      · rename_i hslot
        cases h
        exact .inr ⟨Nat.not_lt.mp hshort, hslot, rfl⟩
  · rintro (⟨hlong, rfl⟩ | ⟨hshort, hslot, rfl⟩)
    · rw [if_pos hlong]
    · rw [if_neg (Nat.not_lt.mpr hshort)]
      split
      · rename_i bytes hbytes
        exact absurd hbytes (hslot bytes)
      · rfl

theorem getElem?_withPayload {old bytes : Bytes} (h : pool.payload index = .ok old) (i : Nat) :
    (pool.withPayload index bytes).slots[i]? =
      if i = index.toNat then some (some (.utf8 bytes)) else pool.slots[i]? := by
  have hslot := get_eq_ok_iff.mp (payload_eq_ok_iff.mp h)
  have hlt : index.toNat < pool.slots.size := (Array.getElem?_eq_some_iff.mp hslot).1
  rw [withPayload, Array.getElem?_setIfInBounds]
  by_cases hi : index.toNat = i
  · rw [if_pos hi, if_pos hi.symm, if_pos (hi ▸ hlt)]
  · rw [if_neg hi, if_neg (Ne.symm hi)]

theorem payload_withPayload {old bytes : Bytes} (h : pool.payload index = .ok old) :
    (pool.withPayload index bytes).payload index = .ok bytes := by
  rw [payload_eq_ok_iff, get_eq_ok_iff, getElem?_withPayload h, if_pos rfl]

/-! ## Agreement -/

/-- The pools differ at most in the bytes of texts, and only at these indices. -/
def AgreesOff (edited : UInt16 → Prop) (pool pool' : Pool) : Prop :=
  ∀ index, pool'.get index = pool.get index ∨
    edited index ∧ ∃ bytes bytes', pool.get index = .ok (.utf8 bytes) ∧
      pool'.get index = .ok (.utf8 bytes')

/-- No constant of the pool uses a text at these indices other than as a string. -/
def Unnamed (edited : UInt16 → Prop) (pool : Pool) : Prop :=
  ∀ index constant, pool.get index = .ok constant → ∀ i, edited i → constant.names i = false

variable {edited : UInt16 → Prop}

theorem AgreesOff.refl (edited : UInt16 → Prop) (pool : Pool) : AgreesOff edited pool pool :=
  fun _ => .inl rfl

theorem AgreesOff.get_eq (h : AgreesOff edited pool pool') (hindex : ¬ edited index) :
    pool'.get index = pool.get index := by
  rcases h index with heq | ⟨hedited, _⟩
  · exact heq
  · exact absurd hedited hindex

theorem AgreesOff.payload_eq (h : AgreesOff edited pool pool') (hindex : ¬ edited index) :
    pool'.payload index = pool.payload index := by
  rw [payload, payload, h.get_eq hindex]

theorem AgreesOff.text_eq (h : AgreesOff edited pool pool') (hindex : ¬ edited index) :
    pool'.text index = pool.text index := by
  rw [text, text, h.payload_eq hindex]

/-- Whether a slot holds a text does not change. -/
theorem AgreesOff.discard_payload (h : AgreesOff edited pool pool') (index : UInt16) :
    discard (pool'.payload index) = discard (pool.payload index) := by
  rcases h index with heq | ⟨_, bytes, bytes', hget, hget'⟩
  · rw [payload, payload, heq]
  · rw [payload_eq_ok_iff.mpr hget, payload_eq_ok_iff.mpr hget']
    rfl

theorem AgreesOff.textIndex_eq (h : AgreesOff edited pool pool') (index : UInt16) :
    pool'.textIndex index = pool.textIndex index := by
  rcases h index with heq | ⟨_, bytes, bytes', hget, hget'⟩
  · rw [textIndex, textIndex, heq]
    cases pool.get index with
    | error fault => rfl
    | ok constant =>
      cases constant with
      | string target =>
        change (discard (pool'.payload target) >>= fun _ => pure target) = _
        rw [h.discard_payload target]
        rfl
      | _ => rfl
  · rw [textIndex, textIndex, hget, hget']
    rfl

section Unnamed

variable (h : AgreesOff edited pool pool') (hnames : Unnamed edited pool)
include h hnames

theorem AgreesOff.className_eq (index : UInt16) : pool'.className index = pool.className index := by
  rcases h index with heq | ⟨_, bytes, bytes', hget, hget'⟩
  · rw [className, className, heq]
    cases hget : pool.get index with
    | error fault => rfl
    | ok constant =>
      cases constant with
      | classInfo name =>
        have hname : ¬ edited name := fun hname => by
          simpa [Constant.names] using hnames index _ hget name hname
        exact h.text_eq hname
      | _ => rfl
  · rw [className, className, hget, hget']
    rfl

theorem AgreesOff.nameAndType_eq (index : UInt16) :
    pool'.nameAndType index = pool.nameAndType index := by
  rcases h index with heq | ⟨_, bytes, bytes', hget, hget'⟩
  · rw [nameAndType, nameAndType, heq]
    cases hget : pool.get index with
    | error fault => rfl
    | ok constant =>
      cases constant with
      | nameAndType name descriptor =>
        have hname : ¬ edited name := fun hname => by
          simpa [Constant.names] using hnames index _ hget name hname
        have hdescriptor : ¬ edited descriptor := fun hdescriptor => by
          simpa [Constant.names] using hnames index _ hget descriptor hdescriptor
        change (do
          let name ← pool'.text name
          let descriptor ← pool'.text descriptor
          return (name, descriptor)) = _
        rw [h.text_eq hname, h.text_eq hdescriptor]
        rfl
      | _ => rfl
  · rw [nameAndType, nameAndType, hget, hget']
    rfl

theorem AgreesOff.memberRef_eq (index : UInt16) : pool'.memberRef index = pool.memberRef index := by
  rcases h index with heq | ⟨_, bytes, bytes', hget, hget'⟩
  · rw [memberRef, memberRef, heq]
    simp only [h.className_eq hnames, h.nameAndType_eq hnames]
  · rw [memberRef, memberRef, hget, hget']
    rfl

end Unnamed

end JarText.Pool
