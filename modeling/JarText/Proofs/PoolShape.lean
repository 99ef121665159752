import JarText.Proofs.PushedPool
import JarText.Proofs.TextSplice

/-!
# The shape of a pool

Slot 0 holds nothing, and of the other slots those hold nothing that stand after a wide constant.
A pool that is new or was read has this shape, and no later call takes it away, so what can be
looked up are exactly the entries. An index that was given out keeps its constant; only a text at it
may become another text.
-/

set_option autoImplicit false

namespace JarText

open Text

namespace Constant

/-- The constant with a new text, if it is a text and there is a new one. -/
def withText : Constant → Option String → Constant
  | utf8 _, some text => utf8 (ModifiedUtf8.encode text)
  | constant, _ => constant

theorem withText_none (constant : Constant) : constant.withText none = constant := by
  cases constant <;> rfl

theorem withText_withText (constant : Constant) (first last : Option String) :
    (constant.withText first).withText last = constant.withText (last.or first) := by
  cases constant with
  | utf8 payload => cases first <;> cases last <;> rfl
  | _ => rfl

theorem isWide_iff {constant : Constant} :
    constant.isWide = true ↔ ∃ bits, constant = long bits ∨ constant = double bits := by
  cases constant <;> simp [isWide]

end Constant

namespace Pool

/-- A call that may change a pool. -/
inductive Change where
  | push (constant : Constant)
  | setText (index : UInt16) (value : String)

/-- The text that the call gives to the text at an index, unless it is too long. -/
def Change.textFor? (index : UInt16) : Change → Option String
  | push _ => none
  | setText target value =>
    if target = index ∧ (ModifiedUtf8.encode value).length ≤ maxTextLength then some value else none

def lastTextFor? (index : UInt16) : List Change → Option String
  | [] => none
  | change :: later => (lastTextFor? index later).or (change.textFor? index)

/-- The pool after a call. One that fails leaves it as it is. -/
def after (pool : Pool) : Change → Pool
  | .push constant => pool.push constant
  | .setText index value => (pool.setText index value).toOption.getD pool

def afterAll (pool : Pool) (changes : List Change) : Pool := changes.foldl after pool

/-- The pool is new, or some bytes were read as it. -/
def IsFresh (pool : Pool) : Prop :=
  pool = empty ∨ ∃ cursor next, read cursor = .ok (pool, next)

def HoldsWide (pool : Pool) (i : Nat) : Prop :=
  ∃ bits, pool.slots[i]? = some (some (.long bits)) ∨ pool.slots[i]? = some (some (.double bits))

structure Shaped (pool : Pool) : Prop where
  first : pool.slots[0]? = some none
  gap_iff : ∀ i, 0 < i → (pool.slots[i]? = some none ↔ pool.HoldsWide (i - 1))
  wide_not_last : ∀ i, pool.HoldsWide i → i + 1 < pool.slots.size

variable {pool : Pool} {constants : List Constant} {constant : Constant} {index : UInt16}
  {change : Change} {changes : List Change}

/-! ## What a row of constants looks like -/

theorem of_getElem?_slotsOf_gap {i : Nat} (h : (slotsOf constant)[i]? = some none) :
    i = 1 ∧ constant.isWide = true := by
  unfold slotsOf at h
  split at h
  · rename_i hwide
    match i with
    | 0 => simp at h
    | 1 => exact ⟨rfl, hwide⟩
    | i + 2 => simp at h
  · match i with
    | 0 => simp at h
    | i + 1 => simp at h

/-- A slot that holds nothing is the second one of a wide constant. -/
theorem exists_append_of_gap {i : Nat} (h : (constants.flatMap slotsOf)[i]? = some none) :
    ∃ front wide back, constants = front ++ wide :: back ∧ wide.isWide = true ∧
      i = (front.flatMap slotsOf).length + 1 := by
  induction constants generalizing i with
  | nil => simp at h
  | cons first constants ih =>
    rw [List.flatMap_cons, List.getElem?_append] at h
    split at h
    · obtain ⟨rfl, hwide⟩ := of_getElem?_slotsOf_gap h
      exact ⟨[], first, constants, rfl, hwide, rfl⟩
    · rename_i hle
      obtain ⟨front, wide, back, rfl, hwide, hi⟩ := ih h
      refine ⟨first :: front, wide, back, rfl, hwide, ?_⟩
      rw [List.flatMap_cons, List.length_append]
      omega

theorem getElem?_flatMap_slotsOf (front : List Constant) (constant : Constant)
    (back : List Constant) (i : Nat) (hi : i < (slotsOf constant).length) :
    ((front ++ constant :: back).flatMap slotsOf)[(front.flatMap slotsOf).length + i]? =
      (slotsOf constant)[i]? := by
  rw [List.flatMap_append, List.getElem?_append_right (Nat.le_add_right _ _),
    Nat.add_sub_cancel_left, List.flatMap_cons, List.getElem?_append_left hi]

theorem gap_iff_exists_wide {i : Nat} : (constants.flatMap slotsOf)[i + 1]? = some none ↔
    ∃ wide, (constants.flatMap slotsOf)[i]? = some (some wide) ∧ wide.isWide = true := by
  constructor
  · intro h
    obtain ⟨front, wide, back, rfl, hwide, hi⟩ := exists_append_of_gap h
    obtain rfl := Nat.succ.inj hi
    refine ⟨wide, ?_, hwide⟩
    have hslot := getElem?_flatMap_slotsOf front wide back 0 (length_slotsOf_pos wide)
    rw [slotsOf, if_pos hwide] at hslot
    exact hslot
  · rintro ⟨wide, hslot, hwide⟩
    obtain ⟨front, back, rfl, rfl⟩ := exists_append_of_slot hslot
    have hslots : slotsOf wide = [some wide, none] := if_pos hwide
    rw [getElem?_flatMap_slotsOf front wide back 1 (by simp [hslots]), hslots]
    rfl

theorem Holds.shaped (h : pool.Holds constants) : pool.Shaped := by
  have hslot : ∀ i : Nat, pool.slots[i]? = (none :: constants.flatMap slotsOf)[i]? := by
    intro i
    rw [← Array.getElem?_toList, h]
  have hwide : ∀ i : Nat, pool.HoldsWide i ↔
      ∃ wide, pool.slots[i]? = some (some wide) ∧ wide.isWide = true := by
    intro i
    simp only [HoldsWide, Constant.isWide_iff]
    constructor
    · rintro ⟨bits, hlong | hdouble⟩
      · exact ⟨_, hlong, bits, .inl rfl⟩
      · exact ⟨_, hdouble, bits, .inr rfl⟩
    · rintro ⟨_, hconstant, bits, rfl | rfl⟩
      · exact ⟨bits, .inl hconstant⟩
      · exact ⟨bits, .inr hconstant⟩
  have hgap : ∀ i : Nat, pool.slots[i + 1]? = some none ↔ pool.HoldsWide i := by
    intro i
    rw [hwide, hslot, hslot, List.getElem?_cons_succ]
    cases i with
    | zero =>
      constructor
      · intro hnone
        obtain ⟨_, _, _, _, _, hi⟩ := exists_append_of_gap hnone
        cases hi
      · rintro ⟨wide, hnone, _⟩
        cases hnone
    | succ i =>
      rw [List.getElem?_cons_succ]
      exact gap_iff_exists_wide
  constructor
  · rw [hslot]
    rfl
  · intro i hpos
    obtain ⟨i, rfl⟩ := Nat.exists_eq_add_of_lt hpos
    rw [Nat.zero_add]
    exact hgap i
  · intro i hi
    exact (Array.getElem?_eq_some_iff.mp ((hgap i).mpr hi)).1

/-! ## The entries -/

theorem get_eq_ok_iff_mem_entries (hsize : pool.slots.size ≤ 65536) :
    pool.get index = .ok constant ↔ (index, constant) ∈ pool.entries := by
  rw [get_eq_ok_iff, entries, List.mem_filterMap]
  constructor
  · intro hslot
    refine ⟨(some constant, index.toNat), ?_, ?_⟩
    · rwa [List.mem_zipIdx_iff_getElem?, Array.getElem?_toList]
    · simp
  · rintro ⟨⟨slot, i⟩, hmem, hentry⟩
    rw [List.mem_zipIdx_iff_getElem?, Array.getElem?_toList] at hmem
    have hlt := (Array.getElem?_eq_some_iff.mp hmem).1
    cases slot with
    | none => cases hentry
    | some found =>
      obtain ⟨rfl, rfl⟩ := Prod.mk.inj (Option.some.inj hentry)
      rwa [UInt16.toNat_ofNat_of_lt' (Nat.lt_of_lt_of_le hlt hsize)]

theorem pairwise_entries (hsize : pool.slots.size ≤ 65536) :
    pool.entries.Pairwise (·.1 < ·.1) := by
  have hascending : pool.slots.toList.zipIdx.Pairwise fun a b => a.2 < b.2 ∧ b.2 < 65536 := by
    rw [List.pairwise_iff_getElem]
    intro i j hi hj hlt
    rw [List.length_zipIdx, Array.length_toList] at hj
    simp only [List.getElem_zipIdx]
    omega
  refine hascending.filterMap _ ?_
  rintro ⟨slot, i⟩ ⟨slot', j⟩ ⟨hlt, hj⟩ entry hentry entry' hentry'
  cases slot with
  | none => cases hentry
  | some found =>
    cases slot' with
    | none => cases hentry'
    | some found' =>
      cases hentry
      cases hentry'
      rw [UInt16.lt_iff_toNat_lt, UInt16.toNat_ofNat_of_lt' hj,
        UInt16.toNat_ofNat_of_lt' (Nat.lt_trans hlt hj)]
      exact hlt

/-! ## Calls -/

theorem exists_holds_of_isFresh (h : pool.IsFresh) : ∃ constants, pool.Holds constants := by
  rcases h with rfl | ⟨cursor, next, hread⟩
  · exact ⟨[], rfl⟩
  · obtain ⟨⟨_, constants, hholds, _⟩, _⟩ := (reads_read cursor pool next).mp hread
    exact ⟨constants, hholds⟩

/-- A call either keeps the pool or sets a text that was there. -/
theorem after_setText_cases (pool : Pool) (index : UInt16) (value : String) :
    (pool.after (.setText index value) = pool ∧
      ((ModifiedUtf8.encode value).length ≤ maxTextLength →
        ∀ bytes, pool.payload index ≠ .ok bytes)) ∨
    ∃ bytes, pool.payload index = .ok bytes ∧
      (ModifiedUtf8.encode value).length ≤ maxTextLength ∧
      pool.after (.setText index value) =
        pool.withPayload index (ModifiedUtf8.encode value) := by
  cases hset : pool.setText index value with
  | ok pool' =>
    obtain ⟨hshort, ⟨bytes, hpayload⟩, rfl⟩ := setText_eq_ok_iff.mp hset
    refine .inr ⟨bytes, hpayload, hshort, ?_⟩
    rw [after, hset]
    rfl
  | error fault =>
    refine .inl ⟨?_, ?_⟩
    · rw [after, hset]
      rfl
    · intro hshort bytes hpayload
      rw [setText_eq_ok_iff.mpr ⟨hshort, ⟨bytes, hpayload⟩, rfl⟩] at hset
      cases hset

theorem Holds.exists_after (h : pool.Holds constants) (change : Change) :
    ∃ constants', (pool.after change).Holds constants' := by
  cases change with
  | push constant =>
    refine ⟨constants ++ [constant], ?_⟩
    rw [Holds, after, toList_push, h, List.flatMap_append, List.flatMap_singleton]
    rfl
  | setText index value =>
    rcases after_setText_cases pool index value with ⟨hsame, _⟩ | ⟨bytes, hpayload, _, hset⟩
    · rw [hsame]
      exact ⟨constants, h⟩
    · obtain ⟨front, back, _, _, hwith⟩ := h.around_payload hpayload
      rw [hset]
      exact ⟨_, hwith _⟩

theorem Holds.exists_afterAll (h : pool.Holds constants) (changes : List Change) :
    ∃ constants', (pool.afterAll changes).Holds constants' := by
  induction changes generalizing pool constants with
  | nil => exact ⟨constants, h⟩
  | cons change changes ih =>
    obtain ⟨constants', h'⟩ := h.exists_after change
    exact ih h'

theorem size_le_after (pool : Pool) (change : Change) :
    pool.slots.size ≤ (pool.after change).slots.size := by
  cases change with
  | push constant =>
    rw [← Array.length_toList, ← Array.length_toList, after, toList_push, List.length_append]
    exact Nat.le_add_right _ _
  | setText index value =>
    rcases after_setText_cases pool index value with ⟨hsame, _⟩ | ⟨bytes, _, _, hset⟩
    · rw [hsame]
    · rw [hset, withPayload, Array.size_setIfInBounds]

theorem size_le_afterAll (pool : Pool) (changes : List Change) :
    pool.slots.size ≤ (pool.afterAll changes).slots.size := by
  induction changes generalizing pool with
  | nil => exact Nat.le_refl _
  | cons change changes ih => exact Nat.le_trans (size_le_after pool change) (ih _)

theorem get_push_nextIndex (hsize : pool.slots.size < 65536) (constant : Constant) :
    (pool.push constant).get pool.nextIndex = .ok constant := by
  have hslot : (slotsOf constant)[0]? = some (some constant) := by
    unfold slotsOf
    split <;> rfl
  rw [get_eq_ok_iff, nextIndex, UInt16.toNat_ofNat_of_lt' hsize, ← Array.getElem?_toList,
    toList_push, ← Array.length_toList, List.getElem?_append_right (Nat.le_refl _), Nat.sub_self,
    hslot]

/-- What is at an index stays there over a call, but for a text that is set. -/
theorem get_after (h : pool.get index = .ok constant) (change : Change) :
    (pool.after change).get index = .ok (constant.withText (change.textFor? index)) := by
  cases change with
  | push other =>
    have hslot := get_eq_ok_iff.mp h
    have hlt := (Array.getElem?_eq_some_iff.mp hslot).1
    rw [Change.textFor?, Constant.withText_none, get_eq_ok_iff, after, ← Array.getElem?_toList,
      toList_push, List.getElem?_append_left (by rwa [Array.length_toList]),
      Array.getElem?_toList, hslot]
  | setText target value =>
    rw [Change.textFor?]
    rcases after_setText_cases pool target value with
      ⟨hsame, hfails⟩ | ⟨bytes, hpayload, hshort, hset⟩
    · rw [hsame, h]
      split_ifs with hsets
      · obtain ⟨rfl, hshort⟩ := hsets
        cases constant with
        | utf8 payload => exact absurd (payload_eq_ok_iff.mpr h) (hfails hshort payload)
        | _ => rfl
      · rw [Constant.withText_none]
    · rw [hset]
      by_cases htarget : target = index
      · subst htarget
        rw [if_pos ⟨rfl, hshort⟩]
        obtain rfl := Except.ok.inj (h.symm.trans (payload_eq_ok_iff.mp hpayload))
        exact payload_eq_ok_iff.mp (payload_withPayload hpayload)
      · have hne : index.toNat ≠ target.toNat := fun heq => htarget (UInt16.toNat_inj.mp heq.symm)
        rw [if_neg fun hsets => htarget hsets.1, Constant.withText_none, get_eq_ok_iff,
          getElem?_withPayload hpayload, if_neg hne]
        exact get_eq_ok_iff.mp h

theorem get_afterAll (h : pool.get index = .ok constant) (changes : List Change) :
    (pool.afterAll changes).get index = .ok (constant.withText (lastTextFor? index changes)) := by
  induction changes generalizing pool constant with
  | nil => rw [lastTextFor?, Constant.withText_none]; exact h
  | cons change changes ih =>
    rw [lastTextFor?, ← Constant.withText_withText]
    exact ih (get_after h change)

/-- A pool keeps its shape over any calls, and its look-ups are its entries, in ascending order of
their indices. What was added at an index is found there ever after, with the last text that was set
on it. -/
theorem shaped_afterAll (hfresh : pool.IsFresh)
    (hsize : (pool.afterAll changes).slots.size ≤ 65535) :
    (pool.afterAll changes).Shaped ∧
    (∀ index constant, (pool.afterAll changes).get index = .ok constant ↔
      (index, constant) ∈ (pool.afterAll changes).entries) ∧
    (pool.afterAll changes).entries.Pairwise (·.1 < ·.1) ∧
    ∀ front constant back, changes = front ++ .push constant :: back →
      (pool.afterAll changes).get (pool.afterAll front).nextIndex =
          .ok (constant.withText (lastTextFor? (pool.afterAll front).nextIndex back)) ∧
        ∀ payload text, constant = .utf8 payload →
          lastTextFor? (pool.afterAll front).nextIndex back = some text →
          (pool.afterAll changes).text (pool.afterAll front).nextIndex = .ok text := by
  have hcounted : (pool.afterAll changes).slots.size ≤ 65536 := Nat.le_succ_of_le hsize
  obtain ⟨constants, hholds⟩ := exists_holds_of_isFresh hfresh
  obtain ⟨constants', hafter⟩ := hholds.exists_afterAll changes
  refine ⟨hafter.shaped, fun _ _ => get_eq_ok_iff_mem_entries hcounted, pairwise_entries hcounted,
    ?_⟩
  rintro front constant back rfl
  have hrun : pool.afterAll (front ++ .push constant :: back) =
      ((pool.afterAll front).push constant).afterAll back := List.foldl_append
  have hroom : (pool.afterAll front).slots.size < 65536 := by
    have hpush := size_le_after (pool.afterAll front) (.push constant)
    have hlater := size_le_afterAll ((pool.afterAll front).push constant) back
    rw [hrun] at hsize
    exact Nat.lt_succ_of_le (Nat.le_trans hpush (Nat.le_trans hlater hsize))
  rw [hrun]
  have hget := get_afterAll (get_push_nextIndex hroom constant) back
  refine ⟨hget, ?_⟩
  rintro payload value rfl hlast
  rw [hlast] at hget
  rw [text, payload_eq_ok_iff.mpr hget]
  exact congrArg Except.ok (ModifiedUtf8.decode_encode value)

/-- A pool with a wide constant in its last two slots. -/
def wideEnded : Pool := ⟨#[none, some (.long 7), none]⟩

/-- A text is set twice; in between, texts for a second slot and for a number are refused. -/
def mixedChanges : List Change :=
  [.push (.utf8 [65]), .push (.double 0), .setText 2 "x", .setText 3 "old", .setText 4 "y",
    .push (.string 3), .setText 3 "new"]

theorem shaped_afterAll_mixedChanges :
    wideEnded.IsFresh ∧ (wideEnded.afterAll mixedChanges).slots.size ≤ 65535 ∧
      (wideEnded.afterAll mixedChanges).Shaped ∧
      (6, .string 3) ∈ (wideEnded.afterAll mixedChanges).entries ∧
      (wideEnded.afterAll mixedChanges).get 4 = .ok (.double 0) ∧
      (wideEnded.afterAll mixedChanges).text 3 = .ok "new" := by
  have hfresh : wideEnded.IsFresh :=
    .inr ⟨⟨0, [0, 3, 5, 0, 0, 0, 0, 0, 0, 0, 7]⟩, ⟨11, []⟩, by decide +kernel⟩
  have hsize : (wideEnded.afterAll mixedChanges).slots.size ≤ 65535 := by decide +kernel
  obtain ⟨hshaped, hentries, _, hkept⟩ := shaped_afterAll hfresh hsize
  have hstring := (hkept (mixedChanges.take 5) (.string 3) [.setText 3 "new"] rfl).1
  have hdouble := (hkept (mixedChanges.take 1) (.double 0) (mixedChanges.drop 2) rfl).1
  have htext := (hkept [] (.utf8 [65]) (mixedChanges.drop 1) rfl).2 [65] "new" rfl
    (by decide +kernel)
  exact ⟨hfresh, hsize, hshaped, (hentries 6 (.string 3)).mp hstring, hdouble, htext⟩

end Pool

end JarText
