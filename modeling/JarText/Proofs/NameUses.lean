import JarText.Proofs.ClassEdits

/-!
# Texts that are names

A class gives its names and descriptors by the indices of texts. `ClassFile.NamesText` lists where
it does so outside the bodies of its methods, `ClassFile.NamesTextInBody` where it does so inside
them. `ClassFile.names` looks at the former places alone. A new text changes no index, so it leaves
the text a name or not a name as it was.
-/

set_option autoImplicit false

namespace JarText

variable {index other : UInt16}

namespace Constant

/-- A constant that gives a name or a descriptor by this index. -/
inductive NamesText (index : UInt16) : Constant → Prop where
  | className : NamesText index (classInfo index)
  | moduleName : NamesText index (moduleInfo index)
  | packageName : NamesText index (packageInfo index)
  | memberName (descriptor : UInt16) : NamesText index (nameAndType index descriptor)
  | memberDescriptor (name : UInt16) : NamesText index (nameAndType name index)
  | methodDescriptor : NamesText index (methodType index)

theorem names_eq_true_iff {constant : Constant} :
    constant.names index = true ↔ constant.NamesText index := by
  constructor
  · intro h
    unfold names at h
    split at h
    · exact eq_of_beq h ▸ .className
    · exact eq_of_beq h ▸ .moduleName
    · exact eq_of_beq h ▸ .packageName
    · rcases Bool.or_eq_true_iff.mp h with hname | hdescriptor
      · exact eq_of_beq hname ▸ .memberName _
      · exact eq_of_beq hdescriptor ▸ .memberDescriptor _
    · exact eq_of_beq h ▸ .methodDescriptor
    · cases h
  · intro h
    cases h with
    | memberDescriptor name => exact Bool.or_eq_true_iff.mpr (.inr (beq_self_eq_true index))
    | memberName descriptor => exact Bool.or_eq_true_iff.mpr (.inl (beq_self_eq_true index))
    | _ => exact beq_self_eq_true index

theorem NamesText.ne_utf8 {constant : Constant} (h : constant.NamesText index) (payload : Bytes) :
    constant ≠ utf8 payload := by
  rintro rfl
  cases h

end Constant

theorem Pool.mem_slots_withPayload {pool : Pool} {old : Bytes} {constant : Constant}
    (h : pool.payload index = .ok old) (bytes : Bytes)
    (hconstant : ∀ payload, constant ≠ .utf8 payload) :
    some constant ∈ (pool.withPayload index bytes).slots ↔ some constant ∈ pool.slots := by
  have hslot := get_eq_ok_iff.mp (payload_eq_ok_iff.mp h)
  simp only [Array.mem_iff_getElem?, getElem?_withPayload h]
  constructor
  · rintro ⟨i, hi⟩
    split at hi
    · exact absurd (Option.some.inj (Option.some.inj hi)).symm (hconstant bytes)
    · exact ⟨i, hi⟩
  · rintro ⟨i, hi⟩
    refine ⟨i, ?_⟩
    rw [if_neg, hi]
    rintro rfl
    rw [hslot] at hi
    exact hconstant old (Option.some.inj (Option.some.inj hi)).symm

theorem Member.names_eq_true_iff {member : Member} :
    member.names index = true ↔ member.name = index ∨ member.descriptor = index ∨
      ∃ attr ∈ member.attributes, attr.name = index := by
  simp only [names, Bool.or_eq_true, beq_iff_eq, List.any_eq_true, or_assoc]

namespace ClassFile

/-- The class gives a name or a descriptor by this index, in its pool, in a field or method, or as
the name of an attribute of the class, of a field or of a method. -/
inductive NamesText (file : ClassFile) (index : UInt16) : Prop where
  | constant {constant : Constant} (hslot : some constant ∈ file.pool.slots)
      (h : constant.NamesText index)
  | memberName {member : Member} (hmember : member ∈ file.fields ++ file.methods)
      (h : member.name = index)
  | memberDescriptor {member : Member} (hmember : member ∈ file.fields ++ file.methods)
      (h : member.descriptor = index)
  | memberAttribute {member : Member} {attr : Attribute}
      (hmember : member ∈ file.fields ++ file.methods) (hattr : attr ∈ member.attributes)
      (h : attr.name = index)
  | classAttribute {attr : Attribute} (hattr : attr ∈ file.attributes) (h : attr.name = index)

/-- An attribute in the body of a method has its name by this index. -/
def NamesTextInBody (file : ClassFile) (index : UInt16) : Prop :=
  ∃ method ∈ file.methods, ∃ body : CodeBody, method.body file.pool = .ok (some body) ∧
    ∃ attr ∈ body.attributes, attr.name = index

variable {file : ClassFile} {old : Bytes}

theorem any_names_iff : file.pool.slots.any (fun slot => slot.any (Constant.names index)) = true ↔
    ∃ constant, some constant ∈ file.pool.slots ∧ constant.NamesText index := by
  simp only [Array.any_eq_true', Option.any_eq_true, Constant.names_eq_true_iff]
  constructor
  · rintro ⟨slot, hslot, constant, rfl, hconstant⟩
    exact ⟨constant, hslot, hconstant⟩
  · rintro ⟨constant, hslot, hconstant⟩
    exact ⟨some constant, hslot, constant, rfl, hconstant⟩

theorem any_member_names_iff :
    (file.fields.any (Member.names index) || file.methods.any (Member.names index)) = true ↔
      ∃ member ∈ file.fields ++ file.methods, member.names index = true := by
  rw [← List.any_append, List.any_eq_true]

/-- Every place outside the bodies is looked at, and no other. -/
theorem names_eq_true_iff : file.names index = true ↔ file.NamesText index := by
  rw [names, Bool.or_assoc (file.pool.slots.any _), Bool.or_eq_true_iff, Bool.or_eq_true_iff,
    any_names_iff, any_member_names_iff, List.any_eq_true]
  simp only [Member.names_eq_true_iff, beq_iff_eq]
  constructor
  · rintro ((⟨constant, hslot, h⟩ | ⟨member, hmember, h⟩) | ⟨attr, hattr, h⟩)
    · exact .constant hslot h
    · rcases h with h | h | ⟨attr, hattr, h⟩
      · exact .memberName hmember h
      · exact .memberDescriptor hmember h
      · exact .memberAttribute hmember hattr h
    · exact .classAttribute hattr h
  · intro h
    cases h with
    | constant hslot h => exact .inl (.inl ⟨_, hslot, h⟩)
    | memberName hmember h => exact .inl (.inr ⟨_, hmember, .inl h⟩)
    | memberDescriptor hmember h => exact .inl (.inr ⟨_, hmember, .inr (.inl h)⟩)
    | memberAttribute hmember hattr h =>
      exact .inl (.inr ⟨_, hmember, .inr (.inr ⟨_, hattr, h⟩)⟩)
    | classAttribute hattr h => exact .inr ⟨_, hattr, h⟩

instance (file : ClassFile) (index : UInt16) : Decidable (file.NamesText index) :=
  decidable_of_iff _ names_eq_true_iff

theorem names_withPayload (h : file.pool.payload index = .ok old) (bytes : Bytes) :
    (file.withPayload index bytes).names other = file.names other := by
  have hpool : (file.withPayload index bytes).pool.slots.any
        (fun slot => slot.any (Constant.names other)) =
      file.pool.slots.any (fun slot => slot.any (Constant.names other)) := by
    rw [Bool.eq_iff_iff, any_names_iff, any_names_iff]
    constructor
    · rintro ⟨constant, hslot, hconstant⟩
      exact ⟨constant, (Pool.mem_slots_withPayload h bytes hconstant.ne_utf8).mp hslot, hconstant⟩
    · rintro ⟨constant, hslot, hconstant⟩
      exact ⟨constant, (Pool.mem_slots_withPayload h bytes hconstant.ne_utf8).mpr hslot, hconstant⟩
  rw [names, names, hpool]
  rfl

end ClassFile

end JarText
