import JarText.Proofs.DescriptorGrammar

/-!
# Types that are shown without a name

An empty class name is refused, but `java.lang.` is taken off only after that, so `Ljava/lang/;` is
read and shows nothing at all. A class whose name is made of brackets shows brackets alone. These
are the only types shown without a name, and the former is the only parameter that leaves no trace
in how a method reads.
-/

set_option autoImplicit false

namespace JarText.Descriptor

/-- Takes off the pairs of brackets in front of a text that is written backwards. -/
def withoutPairs : List Char → List Char
  | ']' :: '[' :: rest => withoutPairs rest
  | rest => rest

/-- What stands before the pairs of brackets at the end of a shown type. -/
def shownName (shown : List Char) : List Char := (withoutPairs shown.reverse).reverse

/-- The class reads as brackets, or would if its package were shown. -/
def ClassName.IsNameless (name : ClassName) : Prop :=
  ∃ pairs, name.dotted = brackets pairs ∨ name.dotted = "java.lang.".toList ++ brackets pairs

def FieldType.IsNameless (type : FieldType) : Prop :=
  ∃ name, type.base = .named name ∧ name.IsNameless

/-- The type is the package `java.lang` itself, spelled as if it were a class. -/
def FieldType.IsBarePackage (type : FieldType) : Prop :=
  ∃ name, type = ⟨0, .named name⟩ ∧ name.dotted = "java.lang.".toList

def MethodType.withoutParameters (type : MethodType) : MethodType := { type with parameters := [] }

/-! ## Brackets -/

theorem brackets_succ (depth : Nat) : brackets (depth + 1) = '[' :: ']' :: brackets depth := by
  rw [brackets, List.replicate_succ, List.flatten_cons]
  rfl

theorem brackets_eq_nil_iff {depth : Nat} : brackets depth = [] ↔ depth = 0 := by
  cases depth with
  | zero => exact iff_of_true rfl rfl
  | succ depth =>
    rw [brackets_succ]
    exact iff_of_false (List.cons_ne_nil _ _) (Nat.succ_ne_zero depth)

theorem head?_brackets (depth : Nat) : ∀ c ∈ (brackets depth).head?, c = '[' := by
  cases depth with
  | zero => exact fun c hc => absurd hc (Option.not_mem_none c)
  | succ depth =>
    rw [brackets_succ]
    exact fun c hc => (Option.mem_some.mp hc).symm

theorem dot_notMem_brackets (depth : Nat) : '.' ∉ brackets depth := by
  induction depth with
  | zero => exact List.not_mem_nil
  | succ depth ih =>
    rw [brackets_succ]
    simp [ih]

theorem reverse_brackets_succ (depth : Nat) :
    (brackets (depth + 1)).reverse = ']' :: '[' :: (brackets depth).reverse := by
  have hsnoc : brackets (depth + 1) = brackets depth ++ ['[', ']'] := by
    rw [brackets, List.replicate_succ', List.flatten_concat]
    rfl
  rw [hsnoc, List.reverse_append]
  rfl

theorem shownName_append_brackets (base : List Char) (depth : Nat) :
    shownName (base ++ brackets depth) = shownName base := by
  have hpairs : withoutPairs ((brackets depth).reverse ++ base.reverse) =
      withoutPairs base.reverse := by
    induction depth with
    | zero => rfl
    | succ depth ih =>
      rw [reverse_brackets_succ, List.cons_append, List.cons_append, withoutPairs]
      exact ih
  rw [shownName, List.reverse_append, hpairs]
  rfl

theorem shownName_eq_nil_iff {shown : List Char} :
    shownName shown = [] ↔ ∃ pairs, shown = brackets pairs := by
  constructor
  · intro h
    have hpairs (text : List Char) (h : withoutPairs text = []) :
        ∃ pairs, text = (brackets pairs).reverse := by
      fun_induction withoutPairs text with
      | case1 rest ih =>
        obtain ⟨pairs, rfl⟩ := ih h
        exact ⟨pairs + 1, (reverse_brackets_succ pairs).symm⟩
      | case2 rest hrest => exact ⟨0, h⟩
    obtain ⟨pairs, hshown⟩ := hpairs shown.reverse (List.reverse_eq_nil_iff.mp h)
    exact ⟨pairs, List.reverse_injective hshown⟩
  · rintro ⟨pairs, rfl⟩
    have h := shownName_append_brackets [] pairs
    rwa [List.nil_append] at h

/-! ## Types -/

theorem Primitive.shownName_keyword (type : Primitive) : shownName type.keyword.toList ≠ [] := by
  cases type <;> decide

namespace ClassName

variable {name : ClassName} {shown : List Char}

theorem dotted_ne_nil (name : ClassName) : name.dotted ≠ [] :=
  mt List.map_eq_nil_iff.mp name.ne_nil

theorem Shows.shownName_eq_nil_iff (h : name.Shows shown) :
    shownName shown = [] ↔ name.IsNameless := by
  rw [Descriptor.shownName_eq_nil_iff, IsNameless]
  apply exists_congr
  intro pairs
  cases h with
  | simple h noDot =>
    rw [h, List.append_cancel_left_eq]
    refine ⟨.inr, fun h => h.resolve_left ?_⟩
    intro hpackage
    have hhead := head?_brackets pairs 'j' (hpackage ▸ rfl)
    cases hhead
  | dotted h =>
    refine ⟨.inl, fun h' => h'.resolve_right ?_⟩
    intro hpackage
    exact dot_notMem_brackets pairs (h _ hpackage)

theorem Shows.eq_nil_iff (h : name.Shows shown) :
    shown = [] ↔ name.dotted = "java.lang.".toList := by
  cases h with
  | simple h noDot =>
    rw [h]
    exact List.append_right_eq_self.symm
  | dotted h =>
    refine iff_of_false name.dotted_ne_nil ?_
    intro hpackage
    have hdot := h [] (hpackage.trans (List.append_nil _).symm)
    cases hdot

end ClassName

namespace FieldType

variable {type : FieldType} {shown : List Char}

theorem Shows.shownName_eq_nil_iff (h : type.Shows shown) :
    shownName shown = [] ↔ type.IsNameless := by
  obtain ⟨hbase⟩ := h
  obtain ⟨depth, base⟩ := type
  rw [shownName_append_brackets, IsNameless]
  cases hbase with
  | primitive p =>
    refine iff_of_false p.shownName_keyword ?_
    rintro ⟨_, ⟨⟩, _⟩
  | @named name _ hname =>
    rw [hname.shownName_eq_nil_iff]
    constructor
    · exact fun h => ⟨name, rfl, h⟩
    · rintro ⟨_, ⟨⟩, h⟩
      exact h

theorem Shows.eq_nil_iff (h : type.Shows shown) : shown = [] ↔ type.IsBarePackage := by
  obtain ⟨hbase⟩ := h
  obtain ⟨depth, base⟩ := type
  rw [List.append_eq_nil_iff, brackets_eq_nil_iff, IsBarePackage]
  cases hbase with
  | primitive p =>
    refine iff_of_false ?_ ?_
    · intro h
      cases p <;> cases h.1
    · rintro ⟨_, ⟨⟩, _⟩
  | @named name _ hname =>
    rw [hname.eq_nil_iff]
    constructor
    · rintro ⟨hpackage, rfl⟩
      exact ⟨name, rfl, hpackage⟩
    · rintro ⟨_, ⟨⟩, hpackage⟩
      exact ⟨hpackage, rfl⟩

end FieldType

namespace MethodType

variable {type : MethodType} {name text : List Char}

theorem ShowsResult.shownName_eq_nil_iff {result : Option FieldType} {shown : List Char}
    (h : ShowsResult result shown) :
    shownName shown = [] ↔ ∃ type, result = some type ∧ type.IsNameless := by
  cases h with
  | nothing =>
    refine iff_of_false (by decide) ?_
    rintro ⟨_, ⟨⟩, _⟩
  | @type type _ h =>
    rw [h.shownName_eq_nil_iff]
    constructor
    · exact fun h => ⟨type, rfl, h⟩
    · rintro ⟨_, ⟨⟩, h⟩
      exact h

theorem Shows.exists_eq (h : type.Shows name text) : ∃ result parameters,
    ShowsResult type.result result ∧ List.Forall₂ FieldType.Shows type.parameters parameters ∧
      text = result ++ [' '] ++ name ++ ['('] ++ commaSeparated parameters ++ [')'] := by
  obtain ⟨hresult, hparameters⟩ := h
  exact ⟨_, _, hresult, hparameters, rfl⟩

theorem commaSeparated_eq_nil_iff {items : List (List Char)} :
    commaSeparated items = [] ↔ items = [] ∨ items = [[]] := by
  match items with
  | [] => exact iff_of_true rfl (.inl rfl)
  | [item] => simp [commaSeparated]
  | item :: next :: rest => simp [commaSeparated, List.intercalate]

theorem eq_singleton_nil_iff {types : List FieldType} {parameters : List (List Char)}
    (h : List.Forall₂ FieldType.Shows types parameters) : parameters = [[]] ↔
      ∃ parameter, types = [parameter] ∧ parameter.IsBarePackage := by
  constructor
  · rintro rfl
    obtain ⟨parameter, _, hparameter, hnil, rfl⟩ := List.forall₂_cons_right_iff.mp h
    rw [List.forall₂_nil_right_iff] at hnil
    exact ⟨parameter, by rw [hnil], hparameter.eq_nil_iff.mp rfl⟩
  · rintro ⟨parameter, rfl, hbare⟩
    obtain ⟨shown, _, hparameter, hnil, rfl⟩ := List.forall₂_cons_left_iff.mp h
    rw [List.forall₂_nil_left_iff] at hnil
    rw [hnil, hparameter.eq_nil_iff.mpr hbare]

theorem Shows.eq_without_parameters_iff {shown bare : List Char} (h : type.Shows name shown)
    (hbare : type.withoutParameters.Shows name bare) :
    bare = shown ↔ type.parameters = [] ∨
      ∃ parameter, type.parameters = [parameter] ∧ parameter.IsBarePackage := by
  obtain ⟨result, parameters, hresult, hparameters, rfl⟩ := h.exists_eq
  obtain ⟨result', none', hresult', hnone, rfl⟩ := hbare.exists_eq
  obtain rfl := List.forall₂_nil_left_iff.mp hnone
  have hempty : parameters = [] ↔ type.parameters = [] := by
    rw [← List.length_eq_zero_iff, ← List.length_eq_zero_iff, hparameters.length_eq]
  rw [hresult'.unique hresult, ← hempty, ← eq_singleton_nil_iff hparameters,
    ← commaSeparated_eq_nil_iff, List.append_left_inj, List.append_right_inj]
  exact eq_comm

end MethodType

/-- A type is shown without a name exactly if it is nameless. A method reads as it would without its
parameters exactly if it has none or, for its only parameter, the bare package. -/
theorem shown_without_name_iff (name descriptor : String) :
    (∀ shown, field descriptor = .ok shown → ∃ type : FieldType,
      descriptor.toList = type.spelled ∧ (shownName shown.toList = [] ↔ type.IsNameless)) ∧
    ∀ shown, method name descriptor = .ok shown → ∃ type : MethodType,
      descriptor.toList = type.spelled ∧
      (∃ result parameters, shown.toList =
          result ++ [' '] ++ name.toList ++ ['('] ++ commaSeparated parameters ++ [')'] ∧
        (MethodType.ShowsResult type.result result ∧
          (shownName result = [] ↔ ∃ returned, type.result = some returned ∧ returned.IsNameless)) ∧
        List.Forall₂ (fun parameter text => parameter.Shows text ∧
          (shownName text = [] ↔ parameter.IsNameless)) type.parameters parameters) ∧
      (method name (String.ofList type.withoutParameters.spelled) = .ok shown ↔
        type.parameters = [] ∨
          ∃ parameter, type.parameters = [parameter] ∧ parameter.IsBarePackage) := by
  constructor
  · intro shown hread
    obtain ⟨type, htype, hshown⟩ := exists_shows_of_field hread
    exact ⟨type, htype, hshown.shownName_eq_nil_iff⟩
  · intro shown hread
    obtain ⟨type, htype, hshown⟩ := exists_shows_of_method hread
    obtain ⟨result, parameters, hresult, hparameters, htext⟩ := hshown.exists_eq
    refine ⟨type, htype, ⟨result, parameters, htext, ⟨hresult, hresult.shownName_eq_nil_iff⟩, ?_⟩,
      ?_⟩
    · exact hparameters.imp fun _ _ h => ⟨h, h.shownName_eq_nil_iff⟩
    · have hspelled := String.toList_ofList (l := type.withoutParameters.spelled)
      obtain ⟨bare, hreadBare, hbare⟩ := method_spelled name hspelled
      rw [hreadBare, Except.ok.injEq, ← String.toList_inj, hshown.eq_without_parameters_iff hbare]

theorem shown_without_name_at_bare_package :
    field "[Ljava/lang/;" = .ok "[]" ∧ method "m" "(Ljava/lang/;)V" = .ok "void m()" ∧
      (∃ type : FieldType, "[Ljava/lang/;".toList = type.spelled ∧ type.IsNameless) ∧
      ∃ type : MethodType, "(Ljava/lang/;)V".toList = type.spelled ∧
        (method "m" (String.ofList type.withoutParameters.spelled) = .ok "void m()" ↔
          type.parameters = [] ∨
            ∃ parameter, type.parameters = [parameter] ∧ parameter.IsBarePackage) := by
  have hfield : field "[Ljava/lang/;" = .ok "[]" := by decide +kernel
  have hmethod : method "m" "(Ljava/lang/;)V" = .ok "void m()" := by decide +kernel
  obtain ⟨type, htype, hname⟩ := (shown_without_name_iff "m" "[Ljava/lang/;").1 "[]" hfield
  obtain ⟨methodType, hmethodType, _, hbare⟩ :=
    (shown_without_name_iff "m" "(Ljava/lang/;)V").2 "void m()" hmethod
  exact ⟨hfield, hmethod, ⟨type, htype, hname.mp (by decide)⟩, methodType, hmethodType, hbare⟩

/-- A parameter that is accepted and does not show. -/
theorem bare_package_shows_nothing :
    field "Ljava/lang/;" = .ok "" ∧ shownName "".toList = [] ∧
      method "m" "(Ljava/lang/;)V" = method "m" "()V" ∧ method "m" "()V" = .ok "void m()" := by
  decide +kernel

end JarText.Descriptor
