import JarText.Proofs.ClassEdits
import JarText.Proofs.Outcomes
import JarText.Proofs.PoolShape

/-!
# Look-ups in a pool with new texts

Setting a text changes neither the kind of a constant nor a reference, so that every look-up goes
the way that it went before. It ends with the same fault, or with the texts of the same slots, and
of these only the ones that were set are new (`Pool.resolvesAlike_afterAll`). The pool need not have
the shape that reading gives it: references may dangle, or name a constant of another kind.
-/

set_option autoImplicit false

namespace JarText

open Text

namespace Constant

def memberParts? : Constant → Option (UInt16 × UInt16)
  | fieldRef owner member | methodRef owner member | interfaceMethodRef owner member =>
    some (owner, member)
  | _ => none

theorem withText_utf8 (payload : Bytes) (text : Option String) :
    (utf8 payload).withText text = utf8 ((text.map ModifiedUtf8.encode).getD payload) := by
  cases text <;> rfl

end Constant

namespace Pool

/-! ## What was read, and what is read now -/

section Renewed

variable (news : UInt16 → Option String) (pool : Pool)

/-- The old text was read from a slot, and the new one is what that slot holds now. -/
structure TextRenewed (slot : UInt16) (old new : String) : Prop where
  source : pool.text slot = .ok old
  new_eq : new = (news slot).getD old

def ClassRenewed (index : UInt16) (old new : String) : Prop :=
  ∃ name, pool.get index = .ok (.classInfo name) ∧ TextRenewed news pool name old new

def PairRenewed (index : UInt16) (old new : String × String) : Prop :=
  ∃ name descriptor, pool.get index = .ok (.nameAndType name descriptor) ∧
    TextRenewed news pool name old.1 new.1 ∧ TextRenewed news pool descriptor old.2 new.2

def MemberRenewed (index : UInt16) (old new : MemberRef) : Prop :=
  ∃ constant owner member, pool.get index = .ok constant ∧
    constant.memberParts? = some (owner, member) ∧
    ClassRenewed news pool owner old.owner new.owner ∧
    PairRenewed news pool member (old.name, old.descriptor) (new.name, new.descriptor)

end Renewed

/-- Every look-up in the second pool ends as it does in the first, but for new texts at some
indices. -/
structure ResolvesAlike (news : UInt16 → Option String) (pool pool' : Pool) : Prop where
  get : ∀ index, Alike (fun old new => new = old.withText (news index))
    (pool.get index) (pool'.get index)
  payload : ∀ index, Alike (fun old new => new = ((news index).map ModifiedUtf8.encode).getD old)
    (pool.payload index) (pool'.payload index)
  text : ∀ index, Alike (fun old new => new = (news index).getD old)
    (pool.text index) (pool'.text index)
  textIndex : ∀ index, pool'.textIndex index = pool.textIndex index
  className : ∀ index, Alike (ClassRenewed news pool index)
    (pool.className index) (pool'.className index)
  nameAndType : ∀ index, Alike (PairRenewed news pool index)
    (pool.nameAndType index) (pool'.nameAndType index)
  memberRef : ∀ index, Alike (MemberRenewed news pool index)
    (pool.memberRef index) (pool'.memberRef index)

variable {news news' : UInt16 → Option String} {pool pool' pool'' : Pool} {changes : List Change}

/-! ## From the constants to the look-ups -/

section Lookups

variable (hget : ∀ index, Alike (fun old new => new = old.withText (news index))
  (pool.get index) (pool'.get index))
include hget

-- Each look-up goes by the kind of a constant, which a new text does not change. `withText` reduces
-- at every kind but a text, whose case is therefore rewritten first.
theorem alike_payload (index : UInt16) :
    Alike (fun old new => new = ((news index).map ModifiedUtf8.encode).getD old)
      (pool.payload index) (pool'.payload index) := by
  refine (hget index).bind ?_
  rintro constant _ - rfl
  cases constant with
  | utf8 bytes =>
    rw [Constant.withText_utf8]
    exact .ok rfl
  | _ => exact .error _

theorem alike_text (index : UInt16) :
    Alike (TextRenewed news pool index) (pool.text index) (pool'.text index) := by
  have hpayload := alike_payload hget index
  unfold text
  cases hold : pool.payload index with
  | error fault =>
    rw [hold] at hpayload
    rw [hpayload.eq_of_error]
    exact .error fault
  | ok bytes =>
    rw [hold] at hpayload
    obtain ⟨_, hnew, rfl⟩ := hpayload.exists_of_ok
    rw [hnew]
    refine .ok ⟨?_, ?_⟩
    · rw [text, hold]
      rfl
    · cases news index with
      | none => rfl
      | some value => exact ModifiedUtf8.decode_encode value

theorem alike_className (index : UInt16) :
    Alike (ClassRenewed news pool index) (pool.className index) (pool'.className index) := by
  refine (hget index).bind ?_
  rintro constant _ hconstant rfl
  cases constant with
  | utf8 bytes =>
    rw [Constant.withText_utf8]
    exact .error _
  | classInfo name =>
    exact (alike_text hget name).mono fun old new _ hrenewed => ⟨name, hconstant, hrenewed⟩
  | _ => exact .error _

theorem alike_nameAndType (index : UInt16) :
    Alike (PairRenewed news pool index) (pool.nameAndType index) (pool'.nameAndType index) := by
  refine (hget index).bind ?_
  rintro constant _ hconstant rfl
  cases constant with
  | utf8 bytes =>
    rw [Constant.withText_utf8]
    exact .error _
  | nameAndType name descriptor =>
    refine (alike_text hget name).bind fun oldName newName _ hname => ?_
    refine (alike_text hget descriptor).bind fun oldDescriptor newDescriptor _ hdescriptor => ?_
    exact .ok ⟨name, descriptor, hconstant, hname, hdescriptor⟩
  | _ => exact .error _

theorem alike_memberRef (index : UInt16) :
    Alike (MemberRenewed news pool index) (pool.memberRef index) (pool'.memberRef index) := by
  refine (hget index).bind ?_
  rintro constant _ hconstant rfl
  cases constant with
  | utf8 bytes =>
    rw [Constant.withText_utf8]
    exact .error _
  | fieldRef owner member | methodRef owner member | interfaceMethodRef owner member =>
    refine (alike_className hget owner).bind fun oldOwner newOwner _ howner => ?_
    refine (alike_nameAndType hget member).bind fun oldPair newPair _ hpair => ?_
    exact .ok ⟨_, owner, member, hconstant, rfl, howner, hpair⟩
  | _ => exact .error _

theorem textIndex_eq_of_alike (index : UInt16) : pool'.textIndex index = pool.textIndex index := by
  have halike : Alike Eq (pool.textIndex index) (pool'.textIndex index) := by
    refine (hget index).bind ?_
    rintro constant _ - rfl
    cases constant with
    | utf8 bytes =>
      rw [Constant.withText_utf8]
      exact .error _
    | string target =>
      have hchecked : Alike (fun _ _ => True) (discard (pool.payload target))
          (discard (pool'.payload target)) :=
        (alike_payload hget target).bind fun _ _ _ _ => .ok trivial
      exact hchecked.bind fun _ _ _ _ => .ok rfl
    | _ => exact .error _
  cases hold : pool.textIndex index with
  | error fault =>
    rw [hold] at halike
    exact halike.eq_of_error
  | ok target =>
    rw [hold] at halike
    obtain ⟨_, hnew, rfl⟩ := halike.exists_of_ok
    exact hnew

/-- Where the constants are alike, all look-ups are. -/
theorem resolvesAlike_of_get : ResolvesAlike news pool pool' where
  get := hget
  payload := alike_payload hget
  text index := (alike_text hget index).mono fun _ _ _ hrenewed => hrenewed.new_eq
  textIndex := textIndex_eq_of_alike hget
  className := alike_className hget
  nameAndType := alike_nameAndType hget
  memberRef := alike_memberRef hget

end Lookups

theorem ResolvesAlike.trans (h : ResolvesAlike news pool pool')
    (h' : ResolvesAlike news' pool' pool'') :
    ResolvesAlike (fun index => (news' index).or (news index)) pool pool'' := by
  refine resolvesAlike_of_get fun index => (h.get index).trans (h'.get index) ?_
  rintro constant _ _ rfl rfl
  exact Constant.withText_withText constant _ _

/-! ## Calls -/

/-- One call, whether it succeeds or fails. -/
theorem resolvesAlike_after (pool : Pool) (target : UInt16) (value : String) :
    ResolvesAlike (fun index => (Change.setText target value).textFor? index) pool
      (pool.after (.setText target value)) := by
  refine resolvesAlike_of_get fun index => ?_
  cases hold : pool.get index with
  | ok constant =>
    rw [get_after hold]
    exact .ok rfl
  | error fault =>
    have hnew : (pool.after (.setText target value)).get index = .error fault := by
      rcases after_setText_cases pool target value with ⟨hsame, _⟩ | ⟨bytes, hpayload, _, hset⟩
      · rw [hsame, hold]
      · rw [hset]
        rcases agreesOff_withPayload hpayload _ index with heq | ⟨_, _, _, htext, _⟩
        · rw [heq, hold]
        · rw [hold] at htext
          cases htext
    rw [hnew]
    exact .error fault

/-- After any calls that set texts, look-ups end as they did at first, with the last text that was
set on each index. -/
theorem resolvesAlike_afterAll (h : ∀ change ∈ changes, ∃ target value,
    change = .setText target value) :
    ResolvesAlike (fun index => lastTextFor? index changes) pool (pool.afterAll changes) := by
  induction changes generalizing pool with
  | nil =>
    refine resolvesAlike_of_get fun index => ?_
    cases hget : pool.get index with
    | error fault =>
      rw [afterAll, List.foldl_nil, hget]
      exact .error fault
    | ok constant =>
      rw [afterAll, List.foldl_nil, hget]
      exact .ok (Constant.withText_none constant).symm
  | cons change changes ih =>
    obtain ⟨⟨target, value, rfl⟩, hlater⟩ := List.forall_mem_cons.mp h
    exact (resolvesAlike_after pool target value).trans (ih hlater)

/-- A text that cannot be set leaves the pool as it is. One that is set changes no fault, no
reference and no other text: wherever the slot is read, on whatever way, the new text is found. -/
theorem setText_keeps_resolution (pool : Pool) (target : UInt16) (value : String) :
    (∀ fault, pool.setText target value = .error fault ↔
      maxTextLength < (ModifiedUtf8.encode value).length ∧
          fault = .textTooLong (ModifiedUtf8.encode value).length ∨
        (ModifiedUtf8.encode value).length ≤ maxTextLength ∧
          (∀ bytes, pool.slots[target.toNat]? ≠ some (some (.utf8 bytes))) ∧
          fault = .badReference target .utf8) ∧
    (∀ fault, pool.setText target value = .error fault →
      pool.after (.setText target value) = pool) ∧
    ∀ pool', pool.setText target value = .ok pool' →
      pool.after (.setText target value) = pool' ∧
        ResolvesAlike (fun index => if index = target then some value else none) pool pool' := by
  refine ⟨fun fault => setText_eq_error_iff, ?_, ?_⟩
  · intro fault hset
    rw [after, hset]
    rfl
  · intro pool' hset
    have hafter : pool.after (.setText target value) = pool' := by
      rw [after, hset]
      rfl
    have hnews : (fun index => (Change.setText target value).textFor? index) =
        fun index => if index = target then some value else none := by
      funext index
      simp only [Change.textFor?, (setText_eq_ok_iff.mp hset).1, and_true, eq_comm]
    refine ⟨hafter, ?_⟩
    rw [← hafter, ← hnews]
    exact resolvesAlike_after pool target value

/-- One text that is reached on several ways, and references that lead to no text. -/
def tangled : Pool :=
  ⟨#[none, some (.utf8 [65]), some (.classInfo 1), some (.nameAndType 1 1), some (.methodRef 2 3),
    some (.classInfo 4), some (.fieldRef 5 3), some (.string 99), some (.long 0), none]⟩

theorem setText_keeps_resolution_of_tangled :
    tangled.setText 8 "B" = .error (.badReference 8 .utf8) ∧
      tangled.after (.setText 8 "B") = tangled ∧
      ∃ pool, tangled.setText 1 "B" = .ok pool ∧ pool.get 4 = .ok (.methodRef 2 3) ∧
        pool.memberRef 4 = .ok ⟨"B", "B", "B"⟩ ∧
        pool.memberRef 6 = .error (.badReference 4 .utf8) ∧
        pool.textIndex 7 = .error (.badReference 99 .usable) := by
  obtain ⟨hfault, hkept, _⟩ := setText_keeps_resolution tangled 8 "B"
  have hrefused : tangled.setText 8 "B" = .error (.badReference 8 .utf8) :=
    (hfault _).mpr (.inr ⟨by decide +kernel, fun bytes => by simp [tangled], rfl⟩)
  refine ⟨hrefused, hkept _ hrefused, ?_⟩
  obtain ⟨_, _, hset⟩ := setText_keeps_resolution tangled 1 "B"
  obtain ⟨pool, hpool⟩ : ∃ pool, tangled.setText 1 "B" = .ok pool :=
    ⟨⟨tangled.slots.setIfInBounds 1 (some (.utf8 [66]))⟩, by decide +kernel⟩
  obtain ⟨_, halike⟩ := hset pool hpool
  obtain ⟨_, hget, rfl⟩ := Alike.exists_of_ok (halike.get 4)
  refine ⟨pool, hpool, hget, ?_, Alike.eq_of_error (halike.memberRef 6), halike.textIndex 7⟩
  have hmember := halike.memberRef 4
  have hold : tangled.memberRef 4 = .ok ⟨"A", "A", "A"⟩ := by decide +kernel
  rw [hold] at hmember
  obtain ⟨⟨owner, name, descriptor⟩, hnew, constant, ownerIndex, pairIndex, hconstant, hparts,
    ⟨ownerText, hclass, howner⟩, nameText, descriptorText, hpair, hname, hdescriptor⟩ :=
    hmember.exists_of_ok
  cases hconstant
  cases hparts
  cases hclass
  cases hpair
  obtain rfl : owner = "B" := howner.new_eq
  obtain rfl : name = "B" := hname.new_eq
  obtain rfl : descriptor = "B" := hdescriptor.new_eq
  exact hnew

end Pool

end JarText
