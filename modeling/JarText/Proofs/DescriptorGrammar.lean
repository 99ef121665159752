import JarText.Proofs.DescriptorTypes

/-!
# The grammar of descriptors

What is spelled for a type is read and shown as the type reads, and what is left is given back. All
else is refused at a place within the text.
-/

set_option autoImplicit false

namespace JarText

namespace Text.Utf8

theorem foldl_utf8Size (n : Nat) (text : List Char) :
    text.foldl (fun n c => n + c.utf8Size) n = n + size text := by
  induction text generalizing n with
  | nil => rfl
  | cons c text ih =>
    rw [size, List.foldl_cons, List.foldl_cons, ih, ih (0 + c.utf8Size)]
    omega

@[simp] theorem size_nil : size [] = 0 := rfl

@[simp] theorem size_cons (c : Char) (text : List Char) :
    size (c :: text) = c.utf8Size + size text := by
  rw [size, List.foldl_cons, foldl_utf8Size, Nat.zero_add]

@[simp] theorem size_append (front back : List Char) :
    size (front ++ back) = size front + size back := by
  induction front with
  | nil => simp
  | cons c front ih => simp [ih, Nat.add_assoc]

theorem size_replicate (n : Nat) (c : Char) : size (List.replicate n c) = n * c.utf8Size := by
  induction n with
  | zero => rw [List.replicate_zero, size_nil, Nat.zero_mul]
  | succ n ih => rw [List.replicate_succ, size_cons, ih, Nat.succ_mul, Nat.add_comm]

theorem length_le_size (text : List Char) : text.length ≤ size text := by
  induction text with
  | nil => exact Nat.le_refl 0
  | cons c text ih =>
    have := c.utf8Size_pos
    rw [List.length_cons, size_cons]
    omega

theorem size_eq_utf8ByteSize (text : String) : size text.toList = text.utf8ByteSize := by
  have hlist (chars : List Char) : size chars = (String.ofList chars).utf8ByteSize := by
    induction chars with
    | nil => rfl
    | cons c chars ih =>
      rw [size_cons, ih]
      simp [String.ofList_cons]
  rw [hlist, String.ofList_toList]

end Text.Utf8

namespace Descriptor

open Text.Utf8

variable {rest : List Char}

namespace Place

def stop (place : Place) : Nat := place.offset + size place.rest

end Place

/-- Reading fails at an offset up to `last`. -/
def FailsUpTo {α : Type} (last : Nat) (outcome : Except Fault α) : Prop :=
  ∃ offset ≤ last, ∃ defect, outcome = .error (.malformed offset defect)

theorem readBase_spelled (type : BaseType) (offset : Nat) (rest : List Char) :
    ∃ shown, type.Shows shown ∧ readBase ⟨offset, type.spelled ++ rest⟩ =
      .ok (shown, ⟨offset + size type.spelled, rest⟩) := by
  cases type with
  | primitive type =>
    refine ⟨type.keyword.toList, .primitive type, ?_⟩
    cases type <;> rfl
  | named name =>
    refine ⟨_, .named name.shows_sourceName, ?_⟩
    have hsize : size (BaseType.named name).spelled = 1 + size name.chars + 1 := by
      rw [BaseType.spelled, size_append, size_cons]
      rfl
    rw [BaseType.named_spelled_append, readBase, hsize]
    simp only [name.takeWhile_chars, name.dropWhile_chars, List.isEmpty_iff, if_neg name.ne_nil]
    simp only [Nat.add_assoc]

theorem eq_append_of_dropWhile {c : Char} {after : List Char}
    (h : rest.dropWhile (· ≠ ';') = c :: after) :
    rest = rest.takeWhile (· ≠ ';') ++ ';' :: after := by
  have hc := List.head?_dropWhile_not (· ≠ ';') rest
  rw [h] at hc
  obtain rfl : c = ';' := by simpa using hc
  rw [← h, List.takeWhile_append_dropWhile]

theorem readBase_cases (place : Place) : (∃ (type : BaseType) (rest : List Char),
      place.rest = type.spelled ++ rest) ∨
    ∃ defect, readBase place = .error (.malformed place.offset defect) := by
  unfold readBase
  split
  · exact .inr ⟨_, rfl⟩
  · rename_i rest hrest
    simp only
    split
    · exact .inr ⟨_, rfl⟩
    · rename_i c after hafter
      split
      · exact .inr ⟨_, rfl⟩
      · rename_i hname
        have hsemicolon : ';' ∉ rest.takeWhile (· ≠ ';') := by
          intro hmem
          simpa using List.mem_takeWhile_imp hmem
        refine .inl ⟨.named ⟨_, mt List.isEmpty_iff.mpr hname, hsemicolon⟩, after, ?_⟩
        rw [hrest, BaseType.named_spelled_append, ← eq_append_of_dropWhile hafter]
  · rename_i c rest _ hrest
    split
    · rename_i keyword hkeyword
      obtain ⟨type, rfl⟩ := Primitive.exists_letter_of_primitive? hkeyword
      exact .inl ⟨.primitive type, rest, hrest⟩
    · exact .inr ⟨_, rfl⟩

theorem readField_spelled (type : FieldType) (offset : Nat) (rest : List Char) :
    ∃ shown, type.Shows shown ∧ readField ⟨offset, type.spelled ++ rest⟩ =
      .ok (shown, ⟨offset + size type.spelled, rest⟩) := by
  obtain ⟨base, hbase, hread⟩ := readBase_spelled type.base (offset + type.depth) rest
  refine ⟨_, .intro hbase, ?_⟩
  have hsize : size type.spelled = type.depth + size type.base.spelled := by
    rw [FieldType.spelled, size_append, size_replicate]
    exact congrArg (· + _) (Nat.mul_one _)
  simp only [readField, type.takeWhile_spelled, type.dropWhile_spelled, List.length_replicate,
    hread, hsize, Nat.add_assoc]
  rw [brackets, List.flatMap_replicate]

theorem readField_cases (place : Place) : (∃ (type : FieldType) (rest : List Char),
      place.rest = type.spelled ++ rest) ∨ FailsUpTo place.stop (readField place) := by
  obtain ⟨offset, chars⟩ := place
  have hsplit := List.takeWhile_append_dropWhile (p := (· = '[')) (l := chars)
  have hbrackets : chars.takeWhile (· = '[') =
      List.replicate (chars.takeWhile (· = '[')).length '[' := by
    apply List.eq_replicate_of_mem
    intro c hc
    simpa using List.mem_takeWhile_imp hc
  rcases readBase_cases ⟨offset + (chars.takeWhile (· = '[')).length,
    chars.dropWhile (· = '[')⟩ with ⟨type, rest, hrest⟩ | ⟨defect, hfault⟩
  · left
    refine ⟨⟨(chars.takeWhile (· = '[')).length, type⟩, rest, ?_⟩
    rw [FieldType.spelled, List.append_assoc, ← hbrackets, ← hrest, hsplit]
  · right
    refine ⟨offset + (chars.takeWhile (· = '[')).length, ?_, defect, by rw [readField, hfault]⟩
    have hlength := length_le_size (chars.takeWhile (· = '['))
    have hsize := congrArg size hsplit
    rw [size_append] at hsize
    simp only [Place.stop]
    omega

theorem fieldFrom_spelled (type : FieldType) :
    ∃ shown, type.Shows shown ∧ fieldFrom type.spelled = .ok shown := by
  obtain ⟨shown, hshown, hread⟩ := readField_spelled type 0 []
  refine ⟨shown, hshown, ?_⟩
  rw [List.append_nil] at hread
  rw [fieldFrom, hread]

theorem fieldFrom_cases (descriptor : List Char) :
    (∃ type : FieldType, descriptor = type.spelled) ∨
      FailsUpTo (size descriptor) (fieldFrom descriptor) := by
  rcases readField_cases ⟨0, descriptor⟩ with
    ⟨type, rest, hrest⟩ | ⟨offset, hoffset, defect, hfault⟩
  · obtain ⟨shown, _, hread⟩ := readField_spelled type 0 rest
    rw [← hrest] at hread
    cases rest with
    | nil => exact .inl ⟨type, hrest.trans (List.append_nil _)⟩
    | cons c rest =>
      right
      refine ⟨0 + size type.spelled, ?_, _, by rw [fieldFrom, hread]⟩
      have hsize := congrArg size hrest
      rw [size_append] at hsize
      simp only at hsize
      omega
  · right
    refine ⟨offset, ?_, defect, by rw [fieldFrom, hfault]⟩
    simp only [Place.stop] at hoffset
    omega

theorem readParameters_succ (fuel : Nat) (done : List (List Char)) {place : Place}
    (h : ∀ rest, place.rest ≠ ')' :: rest) :
    readParameters (fuel + 1) done place =
      match readField place with
      | .error fault => .error fault
      | .ok (parameter, after) => readParameters fuel (parameter :: done) after := by
  rw [readParameters]
  split
  · rename_i rest hrest
    exact absurd hrest (h rest)
  · rfl

theorem readParameters_spelled {types : List FieldType} {fuel : Nat} (hfuel : types.length < fuel)
    (done : List (List Char)) (offset : Nat) (rest : List Char) :
    ∃ shown, List.Forall₂ FieldType.Shows types shown ∧
      readParameters fuel done ⟨offset, types.flatMap FieldType.spelled ++ ')' :: rest⟩ =
        .ok (done.reverse ++ shown,
          ⟨offset + size (types.flatMap FieldType.spelled) + 1, rest⟩) := by
  induction types generalizing fuel done offset with
  | nil =>
    obtain ⟨fuel, rfl⟩ := Nat.exists_eq_succ_of_ne_zero (Nat.ne_of_gt hfuel)
    refine ⟨[], .nil, ?_⟩
    rw [List.append_nil]
    rfl
  | cons type types ih =>
    obtain ⟨fuel, rfl⟩ := Nat.exists_eq_succ_of_ne_zero (Nat.ne_of_gt (Nat.zero_lt_of_lt hfuel))
    obtain ⟨shown, hshown, hread⟩ := readField_spelled type offset
      (types.flatMap FieldType.spelled ++ ')' :: rest)
    obtain ⟨others, hothers, hmore⟩ := ih (Nat.lt_of_succ_lt_succ hfuel) (shown :: done)
      (offset + size type.spelled)
    refine ⟨shown :: others, .cons hshown hothers, ?_⟩
    have hne : ∀ rest', type.spelled ++ (types.flatMap FieldType.spelled ++ ')' :: rest) ≠
        ')' :: rest' := by
      obtain ⟨c, tail, hspelled, hc, _⟩ := type.exists_eq_cons
      rw [hspelled]
      exact fun _ h => hc (List.cons.inj h).1
    rw [List.flatMap_cons, List.append_assoc, readParameters_succ fuel done hne, hread, size_append]
    simp only [hmore, List.reverse_cons, List.append_assoc, List.singleton_append, Nat.add_assoc]

theorem readParameters_cases {fuel : Nat} (done : List (List Char)) (place : Place)
    (hfuel : place.rest.length < fuel) :
    (∃ (types : List FieldType) (rest : List Char),
      place.rest = types.flatMap FieldType.spelled ++ ')' :: rest) ∨
      FailsUpTo place.stop (readParameters fuel done place) := by
  -- Each type takes a character at least, so the fuel lasts as long as there is text.
  induction fuel generalizing done place with
  | zero => cases hfuel
  | succ fuel ih =>
    by_cases hend : ∃ rest, place.rest = ')' :: rest
    · obtain ⟨rest, hrest⟩ := hend
      exact .inl ⟨[], rest, hrest⟩
    · rw [readParameters_succ fuel done fun rest hrest => hend ⟨rest, hrest⟩]
      rcases readField_cases place with ⟨type, rest, hrest⟩ | ⟨offset, hoffset, defect, hfault⟩
      · obtain ⟨shown, _, hread⟩ := readField_spelled type place.offset rest
        rw [← hrest] at hread
        obtain ⟨c, tail, hspelled, _⟩ := type.exists_eq_cons
        have hshorter : rest.length < fuel := by
          rw [hrest, hspelled] at hfuel
          simp only [List.cons_append, List.length_cons, List.length_append] at hfuel
          omega
        have hstop : place.stop = (Place.mk (place.offset + size type.spelled) rest).stop := by
          rw [Place.stop, Place.stop, hrest, size_append, Nat.add_assoc]
        simp only [hread, hstop]
        rcases ih (shown :: done) ⟨_, rest⟩ hshorter with ⟨types, after, hafter⟩ | hfails
        · left
          refine ⟨type :: types, after, ?_⟩
          simp only at hafter
          rw [hrest, hafter, List.flatMap_cons, List.append_assoc]
        · exact .inr hfails
      · exact .inr ⟨offset, hoffset, defect, by rw [hfault]⟩

theorem field_spelled {type : FieldType} {descriptor : String}
    (h : descriptor.toList = type.spelled) :
    ∃ shown, field descriptor = .ok shown ∧ type.Shows shown.toList := by
  obtain ⟨shown, hshown, hread⟩ := fieldFrom_spelled type
  refine ⟨String.ofList shown, ?_, by rwa [String.toList_ofList]⟩
  rw [field, h, hread]
  rfl

theorem field_cases (descriptor : String) :
    (∃ type : FieldType, descriptor.toList = type.spelled) ∨
      FailsUpTo descriptor.utf8ByteSize (field descriptor) := by
  rw [← size_eq_utf8ByteSize]
  rcases fieldFrom_cases descriptor.toList with htype | ⟨offset, hoffset, defect, hfault⟩
  · exact .inl htype
  · refine .inr ⟨offset, hoffset, defect, ?_⟩
    rw [field, hfault]
    rfl

theorem exists_shows_of_field {descriptor shown : String} (h : field descriptor = .ok shown) :
    ∃ type : FieldType, descriptor.toList = type.spelled ∧ type.Shows shown.toList := by
  rcases field_cases descriptor with ⟨type, htype⟩ | ⟨_, _, _, hfault⟩
  · obtain ⟨_, hread, hshown⟩ := field_spelled htype
    cases h.symm.trans hread
    exact ⟨type, htype, hshown⟩
  · cases h.symm.trans hfault

/-- There are more characters left than parameters, so as many steps as characters suffice. -/
theorem length_lt_spelled (types : List FieldType) (rest : List Char) :
    types.length < (types.flatMap FieldType.spelled ++ ')' :: rest).length + 1 := by
  induction types with
  | nil => exact Nat.succ_pos _
  | cons type types ih =>
    obtain ⟨c, tail, hspelled, _⟩ := type.exists_eq_cons
    rw [List.flatMap_cons, hspelled, List.append_assoc]
    simp only [List.length_cons, List.cons_append, List.length_append] at ih ⊢
    omega

def readResult (descriptor : String) (place : Place) : Except Fault (List Char) :=
  if place.rest = ['V'] then .ok "void".toList
  else
    match fieldFrom place.rest with
    | .ok shown => .ok shown
    | .error _ => .error (.malformed place.offset (.badReturnType descriptor))

theorem readResult_spelled (descriptor : String) (result : Option FieldType) (offset : Nat) :
    ∃ shown, MethodType.ShowsResult result shown ∧
      readResult descriptor ⟨offset, MethodType.spelledResult result⟩ = .ok shown := by
  cases result with
  | none => exact ⟨_, .nothing, if_pos rfl⟩
  | some type =>
    obtain ⟨shown, hshown, hread⟩ := fieldFrom_spelled type
    refine ⟨shown, .type hshown, ?_⟩
    simp only [readResult, MethodType.spelledResult, if_neg type.spelled_ne_void, hread]

theorem readResult_cases (descriptor : String) (place : Place) :
    (∃ result, place.rest = MethodType.spelledResult result) ∨
      ∃ defect, readResult descriptor place = .error (.malformed place.offset defect) := by
  by_cases hvoid : place.rest = ['V']
  · exact .inl ⟨none, hvoid⟩
  · rcases fieldFrom_cases place.rest with ⟨type, htype⟩ | ⟨offset, _, defect, hfault⟩
    · exact .inl ⟨some type, htype⟩
    · exact .inr ⟨.badReturnType descriptor, by rw [readResult, if_neg hvoid, hfault]⟩

section Methods

variable {name descriptor : String}

theorem method_of_readParameters {parameters : List (List Char)} {after : Place}
    (h : descriptor.toList = '(' :: rest)
    (hread : readParameters (rest.length + 1) [] ⟨1, rest⟩ = .ok (parameters, after)) :
    method name descriptor = (readResult descriptor after).map fun result =>
      String.ofList (result ++ [' '] ++ name.toList ++ ['('] ++ commaSeparated parameters
        ++ [')']) := by
  rw [method, h]
  simp only [hread, readResult, bind, Except.bind]
  split
  · rfl
  · cases fieldFrom after.rest <;> rfl

theorem method_spelled (name : String) {type : MethodType} (h : descriptor.toList = type.spelled) :
    ∃ shown, method name descriptor = .ok shown ∧ type.Shows name.toList shown.toList := by
  obtain ⟨parameters, hparameters, hread⟩ := readParameters_spelled
    (length_lt_spelled type.parameters _) [] 1 (MethodType.spelledResult type.result)
  obtain ⟨result, hresult, hreadResult⟩ := readResult_spelled descriptor type.result
    (1 + size (type.parameters.flatMap FieldType.spelled) + 1)
  refine ⟨_, (method_of_readParameters h hread).trans (by rw [hreadResult]; rfl), ?_⟩
  rw [String.toList_ofList]
  exact .intro hresult hparameters

theorem method_cases (name descriptor : String) :
    (∃ type : MethodType, descriptor.toList = type.spelled) ∨
      FailsUpTo descriptor.utf8ByteSize (method name descriptor) := by
  rw [← size_eq_utf8ByteSize]
  cases hchars : descriptor.toList with
  | nil => exact .inr ⟨0, Nat.zero_le _, _, by rw [method, hchars]⟩
  | cons c rest =>
    by_cases hc : c = '('
    · subst hc
      have hsize : size ('(' :: rest) = (Place.mk 1 rest).stop := size_cons _ _
      rw [hsize]
      rcases readParameters_cases [] ⟨1, rest⟩ (Nat.lt_succ_self rest.length) with
        ⟨types, after, hafter⟩ | ⟨offset, hoffset, defect, hfault⟩
      · obtain rfl : rest = types.flatMap FieldType.spelled ++ ')' :: after := hafter
        obtain ⟨parameters, _, hread⟩ :=
          readParameters_spelled (length_lt_spelled types after) [] 1 after
        rcases readResult_cases descriptor
            ⟨1 + size (types.flatMap FieldType.spelled) + 1, after⟩ with
          ⟨result, hresult⟩ | ⟨defect, hfault⟩
        · left
          refine ⟨⟨types, result⟩, ?_⟩
          rw [MethodType.spelled, ← hresult]
          rfl
        · right
          refine ⟨_, ?_, defect,
            (method_of_readParameters hchars hread).trans (by rw [hfault]; rfl)⟩
          have := Char.utf8Size_pos ')'
          simp only [Place.stop, size_append, size_cons]
          omega
      · refine .inr ⟨offset, hoffset, defect, ?_⟩
        rw [method, hchars]
        simp only [hfault]
        rfl
    · refine .inr ⟨0, Nat.zero_le _, .noParameterList descriptor, ?_⟩
      rw [method, hchars]
      split
      · rename_i heq
        exact absurd (List.cons.inj heq).1 hc
      · rfl

theorem exists_shows_of_method {shown : String} (h : method name descriptor = .ok shown) :
    ∃ type : MethodType, descriptor.toList = type.spelled ∧
      type.Shows name.toList shown.toList := by
  rcases method_cases name descriptor with ⟨type, htype⟩ | ⟨_, _, _, hfault⟩
  · obtain ⟨_, hread, hshown⟩ := method_spelled name htype
    cases h.symm.trans hread
    exact ⟨type, htype, hshown⟩
  · cases h.symm.trans hfault

end Methods

/-- A descriptor of a type is read as that type and shown as the type reads; any other text is
refused at an offset within it. -/
theorem read_exactly_spelled (name descriptor : String) :
    ((∃ type : FieldType, descriptor.toList = type.spelled ∧
        ∃ shown, field descriptor = .ok shown ∧ ∀ text, type.Shows text ↔ text = shown.toList) ∨
      (∀ type : FieldType, descriptor.toList ≠ type.spelled) ∧
        FailsUpTo descriptor.utf8ByteSize (field descriptor)) ∧
    ((∃ type : MethodType, descriptor.toList = type.spelled ∧
        (∀ other : MethodType, descriptor.toList = other.spelled → other = type) ∧
        ∃ shown, method name descriptor = .ok shown ∧
          ∀ text, type.Shows name.toList text ↔ text = shown.toList) ∨
      (∀ type : MethodType, descriptor.toList ≠ type.spelled) ∧
        FailsUpTo descriptor.utf8ByteSize (method name descriptor)) := by
  constructor
  · by_cases hspelled : ∃ type : FieldType, descriptor.toList = type.spelled
    · obtain ⟨type, htype⟩ := hspelled
      obtain ⟨shown, hread, hshown⟩ := field_spelled htype
      exact .inl ⟨type, htype, shown, hread, fun text => ⟨fun h => h.unique hshown, (· ▸ hshown)⟩⟩
    · have hnone := not_exists.mp hspelled
      exact .inr ⟨hnone, (field_cases descriptor).resolve_left hspelled⟩
  · by_cases hspelled : ∃ type : MethodType, descriptor.toList = type.spelled
    · obtain ⟨type, htype⟩ := hspelled
      obtain ⟨shown, hread, hshown⟩ := method_spelled name htype
      refine .inl ⟨type, htype, ?_, shown, hread, ?_⟩
      · intro other hother
        exact MethodType.spelled_injective (hother.symm.trans htype)
      · exact fun text => ⟨fun h => h.unique hshown, (· ▸ hshown)⟩
    · have hnone := not_exists.mp hspelled
      exact .inr ⟨hnone, (method_cases name descriptor).resolve_left hspelled⟩

example : method "put" "(IJ[[DLjava/util/Map;Z)Ljava/lang/Object;" =
    .ok "Object put(int, long, double[][], java.util.Map, boolean)" := by
  decide +kernel

end Descriptor

end JarText
