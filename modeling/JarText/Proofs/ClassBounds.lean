import JarText.Proofs.ClassCodec

/-!
# Where a class ends

A reader stays within its bytes if it neither goes past their end nor names an offset past it in a
fault (`Reader.StaysWithin`). Readers in steps do so if each of their steps does, and thus the
reader of a class does, whatever the bytes are. As it reads exactly what is written for a class, a
class has one end: its bytes are no class when they are cut, nor when others follow.
-/

set_option autoImplicit false

namespace JarText

def Cursor.stop (cursor : Cursor) : Nat := cursor.offset + cursor.rest.length

theorem Cursor.Passes.stop_eq {cursor next : Cursor} {bytes : Bytes}
    (h : cursor.Passes bytes next) : next.stop = cursor.stop := by
  obtain ⟨hrest, hoffset⟩ := h
  rw [Cursor.stop, Cursor.stop, hrest, hoffset, List.length_append, Nat.add_assoc]

/-- The fault is a defect at an offset that is not past `stop`. -/
def Fault.IsWithin (stop : Nat) (fault : Fault) : Prop :=
  ∃ offset defect, fault = .malformed offset defect ∧ offset ≤ stop

namespace Reader

variable {α β : Type}

structure StaysWithin (read : Reader α) : Prop where
  stop_eq : ∀ {cursor a next}, read cursor = .ok (a, next) → next.stop = cursor.stop
  isWithin : ∀ {cursor fault}, read cursor = .error fault → fault.IsWithin cursor.stop

namespace StaysWithin

variable {read : Reader α} {step : α → Reader β}

theorem pure (a : α) : StaysWithin (pure a : Reader α) where
  stop_eq h := by
    obtain ⟨rfl, rfl⟩ := pure_eq_ok_iff.mp h
    rfl
  isWithin h := by cases h

theorem malformed (offset : Cursor → Nat) (defect : Defect)
    (h : ∀ cursor, offset cursor ≤ cursor.stop) :
    StaysWithin (fun cursor => .error (.malformed (offset cursor) defect) : Reader α) where
  stop_eq h := by cases h
  isWithin herror := by
    cases herror
    exact ⟨_, _, rfl, h _⟩

theorem bind (h : StaysWithin read) (hstep : ∀ a, StaysWithin (step a)) :
    StaysWithin (read >>= step) where
  stop_eq := by
    intro cursor b last hread
    obtain ⟨a, next, hfirst, hsecond⟩ := bind_eq_ok_iff.mp hread
    rw [(hstep a).stop_eq hsecond, h.stop_eq hfirst]
  isWithin := by
    intro cursor fault hread
    rcases except_bind_eq_error_iff.mp hread with hfirst | ⟨⟨a, next⟩, hfirst, hsecond⟩
    · exact h.isWithin hfirst
    · rw [← h.stop_eq hfirst]
      exact (hstep a).isWithin hsecond

/-- A check before the other steps tells of the first byte. -/
theorem afterCheck {p : Prop} [Decidable p] (defect : Defect) (h : StaysWithin read) :
    StaysWithin (if p then (throw (.malformed 0 defect) : Reader PUnit) >>= fun _ => read
      else read) := by
  split
  · exact bind (.malformed (fun _ => 0) defect fun _ => Nat.zero_le _) fun _ => h
  · exact h

theorem map (f : α → β) (h : StaysWithin read) : StaysWithin (f <$> read) :=
  h.bind fun a => .pure (f a)

theorem take (count : Nat) (part : String) : StaysWithin (take count part) where
  stop_eq h := (take_eq_ok_iff.mp h).2.stop_eq
  isWithin := by
    intro cursor fault h
    simp only [Reader.take] at h
    split at h
    · cases h
      exact ⟨_, _, rfl, Nat.le_add_right _ _⟩
    · cases h

theorem uint8 (part : String) : StaysWithin (uint8 part) := (take 1 part).map _

theorem uint16 (part : String) : StaysWithin (uint16 part) := (take 2 part).map _

theorem uint32 (part : String) : StaysWithin (uint32 part) := (take 4 part).map _

theorem uint64 (part : String) : StaysWithin (uint64 part) := (take 8 part).map _

theorem manyFrom (h : StaysWithin read) (count : Nat) (done : List α) :
    StaysWithin (manyFrom read count done) := by
  induction count generalizing done with
  | zero => exact .pure done.reverse
  | succ count ih =>
    constructor
    · intro cursor items last hread
      simp only [Reader.manyFrom] at hread
      split at hread
      · cases hread
      · rename_i item next hitem
        rw [(ih _).stop_eq hread, h.stop_eq hitem]
    · intro cursor fault hread
      simp only [Reader.manyFrom] at hread
      split at hread
      · rename_i hitem
        cases hread
        exact h.isWithin hitem
      · rename_i item next hitem
        rw [← h.stop_eq hitem]
        exact (ih _).isWithin hread

theorem counted (part : String) (h : StaysWithin read) : StaysWithin (counted part read) :=
  (uint16 part).bind fun count => h.manyFrom count.toNat []

end StaysWithin

end Reader

open Reader

/-! ## The parts of a class -/

namespace Constant

theorem staysWithin_readPair (part : String) (make : UInt16 → UInt16 → Constant) :
    StaysWithin (readPair part make) :=
  (StaysWithin.uint16 part).bind fun _ => (StaysWithin.uint16 part).bind fun _ => .pure _

/-- Only an unknown tag is not told of where the reader stands. -/
theorem staysWithin_readBody_or (offset : Nat) (tag : UInt8) :
    StaysWithin (readBody offset tag) ∨
      readBody offset tag = fun _ => .error (.malformed offset (.unknownTag tag)) := by
  fun_cases readBody offset tag
  case case1 =>
    exact .inl ((StaysWithin.uint16 _).bind fun _ => (StaysWithin.take _ _).bind fun _ => .pure _)
  case case2 | case3 => exact .inl ((StaysWithin.uint32 _).map _)
  case case4 | case5 => exact .inl ((StaysWithin.uint64 _).map _)
  case case6 | case7 | case13 | case16 | case17 => exact .inl ((StaysWithin.uint16 _).map _)
  case case8 | case9 | case10 | case11 | case14 | case15 => exact .inl (staysWithin_readPair _ _)
  case case12 =>
    exact .inl ((StaysWithin.uint8 _).bind fun _ => (StaysWithin.uint16 _).bind fun _ => .pure _)
  case case18 => exact .inr rfl

theorem staysWithin_read : StaysWithin read := by
  constructor
  · intro cursor constant last hread
    exact ((reads_read _ _ _).mp hread).2.stop_eq
  · intro cursor fault hread
    unfold read at hread
    split at hread
    · rename_i htag
      cases hread
      exact (StaysWithin.uint8 _).isWithin htag
    · rename_i tag next htag
      have hstop := (StaysWithin.uint8 _).stop_eq htag
      rcases staysWithin_readBody_or cursor.offset tag with hbody | hbody
      · exact hstop ▸ hbody.isWithin hread
      · rw [hbody] at hread
        cases hread
        exact ⟨_, _, rfl, Nat.le_add_right _ _⟩

end Constant

namespace Pool

theorem staysWithin_readSlots (missing : Nat) (slots : Array Slot) :
    StaysWithin (readSlots missing slots) := by
  induction missing using Nat.strongRecOn generalizing slots with
  | _ missing ih =>
    constructor
    · intro cursor filled last hread
      obtain ⟨constants, _, _, _, hpasses⟩ := readSlots_eq_ok_iff.mp hread
      exact hpasses.stop_eq
    · intro cursor fault hread
      cases missing with
      | zero => cases hread
      | succ missing =>
        simp only [readSlots] at hread
        split at hread
        · rename_i hconstant
          cases hread
          exact Constant.staysWithin_read.isWithin hconstant
        · rename_i constant next hconstant
          rw [← Constant.staysWithin_read.stop_eq hconstant]
          split at hread
          · cases missing with
            | zero =>
              cases hread
              exact ⟨_, _, rfl, Nat.le_add_right _ _⟩
            | succ missing => exact (ih missing (by omega) _).isWithin hread
          · exact (ih missing (by omega) _).isWithin hread

theorem staysWithin_read : StaysWithin read := by
  refine (StaysWithin.uint16 _).bind fun count => ?_
  split
  · exact .malformed Cursor.offset _ fun cursor => Nat.le_add_right _ _
  · exact (staysWithin_readSlots _ _).bind fun slots => .pure _

end Pool

theorem Attribute.staysWithin_read : StaysWithin read :=
  (StaysWithin.uint16 _).bind fun _ => (StaysWithin.uint32 _).bind fun _ =>
    (StaysWithin.take _ _).bind fun _ => .pure _

theorem Attribute.staysWithin_readAll : StaysWithin readAll :=
  .counted _ staysWithin_read

theorem Member.staysWithin_read : StaysWithin read :=
  (StaysWithin.uint16 _).bind fun _ => (StaysWithin.uint16 _).bind fun _ =>
    (StaysWithin.uint16 _).bind fun _ => Attribute.staysWithin_readAll.bind fun _ => .pure _

namespace ClassFile

theorem staysWithin_readFront : StaysWithin readFront := by
  refine (StaysWithin.uint32 _).bind fun found => .afterCheck _ ?_
  exact (StaysWithin.uint16 _).bind fun _ => (StaysWithin.uint16 _).bind fun _ =>
    Pool.staysWithin_read.bind fun _ => (StaysWithin.uint16 _).bind fun _ =>
    (StaysWithin.uint16 _).bind fun _ => (StaysWithin.uint16 _).bind fun _ =>
    (StaysWithin.counted _ (.uint16 _)).bind fun _ =>
    (StaysWithin.counted _ Member.staysWithin_read).bind fun _ =>
    (StaysWithin.counted _ Member.staysWithin_read).bind fun _ =>
    Attribute.staysWithin_readAll.bind fun _ => .pure _

variable {bytes front extra : Bytes} {file : ClassFile} {fault : Fault}

theorem isWithin_of_read (h : read bytes = .error fault) : fault.IsWithin bytes.length := by
  have hstop : (Cursor.start bytes).stop = bytes.length := Nat.zero_add _
  unfold read at h
  split at h
  · rename_i hfront
    cases h
    exact hstop ▸ staysWithin_readFront.isWithin hfront
  · cases h
  · rename_i file offset rest _ hfront
    cases h
    have hend := staysWithin_readFront.stop_eq hfront
    refine ⟨offset, _, rfl, ?_⟩
    rw [← hstop, ← hend]
    exact Nat.le_add_right _ _

theorem read_append (h : read bytes = .ok file) (hne : extra ≠ []) :
    read (bytes ++ extra) = .error (.malformed bytes.length (.trailingBytes extra.length)) := by
  obtain ⟨hfits, rfl⟩ := read_eq_ok_iff.mp h
  have hfront : readFront (Cursor.start (file.write ++ extra)) =
      .ok (file, ⟨file.write.length, extra⟩) :=
    (reads_readFront _ _ _).mpr ⟨hfits, Cursor.start_passes_iff.mpr ⟨rfl, rfl⟩⟩
  obtain ⟨byte, extra, rfl⟩ := List.exists_cons_of_ne_nil hne
  rw [read, hfront]

/-- If the front of a class were a class, then the class would go on after its end. -/
theorem exists_error_of_prefix (h : read bytes = .ok file) (hfront : front <+: bytes)
    (hne : front ≠ bytes) : ∃ fault, read front = .error fault := by
  obtain ⟨extra, rfl⟩ := hfront
  have hextra : extra ≠ [] := by
    rintro rfl
    exact hne (List.append_nil front).symm
  cases hread : read front with
  | error fault => exact ⟨fault, rfl⟩
  | ok other =>
    rw [read_append hread hextra] at h
    cases h

/-- A class that is read is none when it is cut, and when other bytes follow, the fault tells where
they begin. Whatever is not read has a defect at an offset that is not past its end. -/
theorem read_up_to_one_end (bytes : Bytes) :
    (∀ file, read bytes = .ok file →
      (∀ front, front <+: bytes → front ≠ bytes → ∃ fault, read front = .error fault) ∧
      ∀ extra, extra ≠ [] →
        read (bytes ++ extra) = .error (.malformed bytes.length (.trailingBytes extra.length))) ∧
    ∀ fault, read bytes = .error fault →
      ∃ offset defect, fault = .malformed offset defect ∧ offset ≤ bytes.length := by
  refine ⟨?_, fun fault => isWithin_of_read⟩
  intro file h
  exact ⟨fun front => exists_error_of_prefix h, fun extra => read_append h⟩

theorem read_specimen_up_to_one_end :
    read specimenBytes = .ok specimen ∧
      (∃ offset defect, read specimenBytes.dropLast = .error (.malformed offset defect) ∧
        offset ≤ 141) ∧
      read (specimenBytes ++ [0]) = .error (.malformed 142 (.trailingBytes 1)) := by
  have hread := (read_up_to_one_end specimenBytes).1 specimen read_specimenBytes
  refine ⟨read_specimenBytes, ?_, hread.2 [0] (by decide)⟩
  obtain ⟨fault, hfault⟩ := hread.1 _ (List.dropLast_prefix _) (by decide)
  obtain ⟨offset, defect, rfl, hoffset⟩ := (read_up_to_one_end specimenBytes.dropLast).2 _ hfault
  exact ⟨offset, defect, hfault, hoffset⟩

end ClassFile

end JarText
