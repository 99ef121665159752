import JarText.Proofs.ClassCodec

/-!
# Classes put together by hand

A class need not come from bytes: its pool may be made by adding constants, and its lists may be of
any length. It is read back from what it is written as exactly when every count and every length
fits the field that it is written in. The second slot of a wide constant is not written; it comes
back because the constant before it is wide, wherever in the pool that constant stands.
-/

set_option autoImplicit false

namespace JarText

namespace Pool

variable {pool : Pool} {constants others : List Constant}

def ofConstants (constants : List Constant) : Pool := constants.foldl push empty

theorem toList_push (pool : Pool) (constant : Constant) :
    (pool.push constant).slots.toList = pool.slots.toList ++ slotsOf constant := by
  unfold push slotsOf
  split
  · simp
  · simp

theorem toList_foldl_push (pool : Pool) (constants : List Constant) :
    (constants.foldl push pool).slots.toList = pool.slots.toList ++ constants.flatMap slotsOf := by
  induction constants generalizing pool with
  | nil => simp
  | cons constant constants ih =>
    rw [List.foldl_cons, ih, toList_push, List.flatMap_cons, List.append_assoc]

theorem holds_ofConstants (constants : List Constant) : (ofConstants constants).Holds constants :=
  toList_foldl_push empty constants

theorem reduceOption_slotsOf (constant : Constant) :
    (slotsOf constant).reduceOption = [constant] := by
  unfold slotsOf
  split
  · rfl
  · rfl

theorem reduceOption_flatMap_slotsOf (constants : List Constant) :
    (constants.flatMap slotsOf).reduceOption = constants := by
  induction constants with
  | nil => rfl
  | cons constant constants ih =>
    rw [List.flatMap_cons, List.reduceOption_append, reduceOption_slotsOf, ih,
      List.singleton_append]

/-- The slots tell which constants were added. -/
theorem Holds.unique (h : pool.Holds constants) (h' : pool.Holds others) : others = constants := by
  have hslots := h'.symm.trans h
  rw [← reduceOption_flatMap_slotsOf others, ← reduceOption_flatMap_slotsOf constants,
    List.tail_eq_of_cons_eq hslots]

theorem Holds.fits_iff (h : pool.Holds constants) :
    pool.Fits ↔ pool.slots.size < 65536 ∧ ∀ c ∈ constants, c.Fits := by
  constructor
  · rintro ⟨hsize, others, hothers, hfits⟩
    have hsame := h.unique hothers
    subst hsame
    exact ⟨hsize, hfits⟩
  · intro hfits
    exact ⟨hfits.1, constants, h, hfits.2⟩

end Pool

theorem Constant.forall_fits_iff {constants : List Constant} :
    (∀ c ∈ constants, c.Fits) ↔ ∀ payload, utf8 payload ∈ constants → payload.length ≤ 65535 := by
  constructor
  · intro h payload hmem
    exact Nat.le_of_lt_succ (h (utf8 payload) hmem)
  · intro h c hmem
    cases c with
    | utf8 payload => exact Nat.lt_succ_of_le (h payload hmem)
    | _ => exact trivial

namespace ClassFile

/-- The limits of the format, for a class whose pool was made of these constants. -/
structure WithinLimits (constants : List Constant) (file : ClassFile) : Prop where
  slots : file.pool.slots.size ≤ 65535
  texts : ∀ payload, Constant.utf8 payload ∈ constants → payload.length ≤ 65535
  interfaces : file.interfaces.length ≤ 65535
  fields : file.fields.length ≤ 65535
  methods : file.methods.length ≤ 65535
  attributes : file.attributes.length ≤ 65535
  memberAttributes : ∀ member ∈ file.fields ++ file.methods, member.attributes.length ≤ 65535
  infos : ∀ attr ∈ file.attributes ++ (file.fields ++ file.methods).flatMap (·.attributes),
    attr.info.length < 2 ^ 32

variable {file : ClassFile} {constants : List Constant}

theorem WithinLimits.fits (h : file.WithinLimits constants) (hpool : file.pool.Holds constants) :
    file.Fits := by
  have hinfo : ∀ member ∈ file.fields ++ file.methods, member.Fits := by
    intro member hmember
    refine ⟨Nat.lt_succ_of_le (h.memberAttributes member hmember), ?_⟩
    intro attr hattr
    apply h.infos
    exact List.mem_append_right _ (List.mem_flatMap.mpr ⟨member, hmember, hattr⟩)
  refine ⟨?_, Nat.lt_succ_of_le h.interfaces, ⟨Nat.lt_succ_of_le h.fields, ?_⟩,
    ⟨Nat.lt_succ_of_le h.methods, ?_⟩, ⟨Nat.lt_succ_of_le h.attributes, ?_⟩⟩
  · exact hpool.fits_iff.mpr ⟨Nat.lt_succ_of_le h.slots, Constant.forall_fits_iff.mpr h.texts⟩
  · intro member hmember
    exact hinfo member (List.mem_append_left _ hmember)
  · intro member hmember
    exact hinfo member (List.mem_append_right _ hmember)
  · intro attr hattr
    exact h.infos attr (List.mem_append_left _ hattr)

theorem Fits.withinLimits (h : file.Fits) (hpool : file.pool.Holds constants) :
    file.WithinLimits constants := by
  obtain ⟨hsize, hconstants⟩ := hpool.fits_iff.mp h.pool
  have hmembers : ∀ member ∈ file.fields ++ file.methods, member.Fits := by
    intro member hmember
    rcases List.mem_append.mp hmember with hfield | hmethod
    · exact h.fields.2 member hfield
    · exact h.methods.2 member hmethod
  refine ⟨Nat.le_of_lt_succ hsize, Constant.forall_fits_iff.mp hconstants,
    Nat.le_of_lt_succ h.interfaces, Nat.le_of_lt_succ h.fields.1, Nat.le_of_lt_succ h.methods.1,
    Nat.le_of_lt_succ h.attributes.1, ?_, ?_⟩
  · intro member hmember
    exact Nat.le_of_lt_succ (hmembers member hmember).1
  · intro attr hattr
    rcases List.mem_append.mp hattr with hclass | hmember
    · exact h.attributes.2 attr hclass
    · obtain ⟨member, hmember, hattr⟩ := List.mem_flatMap.mp hmember
      exact (hmembers member hmember).2 attr hattr

/-- A class put together of constants and lists is read back from its bytes exactly when it keeps
within the limits of the format. -/
theorem read_write_iff_withinLimits (hpool : file.pool = Pool.ofConstants constants) :
    read file.write = .ok file ↔ file.WithinLimits constants := by
  have hholds : file.pool.Holds constants := hpool ▸ Pool.holds_ofConstants constants
  rw [read_eq_ok_iff]
  constructor
  · rintro ⟨hfits, _⟩
    exact hfits.withinLimits hholds
  · intro hlimits
    exact ⟨hlimits.fits hholds, rfl⟩

/-- Constants of one and of two slots, the last of them wide. -/
def mixedConstants : List Constant :=
  [.utf8 [65], .long 7, .classInfo 1, .utf8 [], .methodHandle 6 1, .double 0x7FF8000000000001]

def withInterfaces (count : Nat) : ClassFile :=
  { minor := 0, major := 65, pool := Pool.ofConstants mixedConstants, access := 1, thisClass := 4
    superClass := 0, interfaces := List.replicate count 4, fields := [⟨2, 1, 1, [⟨1, [0, 5]⟩]⟩]
    methods := [], attributes := [⟨5, []⟩] }

theorem length_withInterfaces (count : Nat) : (withInterfaces count).interfaces.length = count :=
  List.length_replicate

/-- With one interface more than can be counted, the class is no longer read back. -/
theorem read_write_withInterfaces :
    (withInterfaces 65535).pool = Pool.ofConstants mixedConstants ∧
      read (withInterfaces 65535).write = .ok (withInterfaces 65535) ∧
      read (withInterfaces 65536).write ≠ .ok (withInterfaces 65536) := by
  have hlimits : (withInterfaces 65535).WithinLimits mixedConstants :=
    { slots := by decide
      texts := by
        intro payload hmem
        simp only [mixedConstants, List.mem_cons, Constant.utf8.injEq, reduceCtorEq, false_or,
          or_false, List.not_mem_nil] at hmem
        rcases hmem with rfl | rfl
        · decide
        · decide
      interfaces := Nat.le_of_eq (length_withInterfaces 65535)
      fields := by decide
      methods := by decide
      attributes := by decide
      memberAttributes := by decide
      infos := by decide }
  refine ⟨rfl, (read_write_iff_withinLimits rfl).mpr hlimits, ?_⟩
  intro hread
  have hcount := ((read_write_iff_withinLimits rfl).mp hread).interfaces
  rw [length_withInterfaces] at hcount
  exact absurd hcount (by decide)

end ClassFile

end JarText
