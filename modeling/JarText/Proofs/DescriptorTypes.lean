import JarText.Descriptor
import Mathlib.Data.List.Forall2
import Mathlib.Data.List.TakeWhile

/-!
# The types of descriptors

`FieldType` and `MethodType` are the types that descriptors name. `spelled` is the one descriptor of
a type, and `Shows` says how the type reads in source code. No text begins with the descriptors of
two field types, so the descriptor of a method falls into its types in one way only.
-/

set_option autoImplicit false

namespace JarText.Descriptor

inductive Primitive where
  | byte | char | double | float | int | long | short | boolean

/-- The name of a class in a descriptor, with the parts of its package apart by slashes. -/
structure ClassName where
  chars : List Char
  ne_nil : chars ≠ []
  noSemicolon : ';' ∉ chars

/-- A type without its array brackets. -/
inductive BaseType where
  | primitive (type : Primitive)
  | named (name : ClassName)

/-- The type of a field or a parameter: an array of `depth` dimensions, or none at depth zero. -/
structure FieldType where
  depth : Nat
  base : BaseType

structure MethodType where
  parameters : List FieldType
  /-- None if the method returns nothing. -/
  result : Option FieldType

namespace Primitive

def letter : Primitive → Char
  | byte => 'B'
  | char => 'C'
  | double => 'D'
  | float => 'F'
  | int => 'I'
  | long => 'J'
  | short => 'S'
  | boolean => 'Z'

def keyword : Primitive → String
  | byte => "byte"
  | char => "char"
  | double => "double"
  | float => "float"
  | int => "int"
  | long => "long"
  | short => "short"
  | boolean => "boolean"

end Primitive

namespace ClassName

def dotted (name : ClassName) : List Char :=
  name.chars.map fun c => if c = '/' then '.' else c

/-- A class of the package `java.lang` itself reads by what follows the package, any other class by
its dotted name. -/
inductive Shows (name : ClassName) : List Char → Prop where
  | simple {shown : List Char} (h : name.dotted = "java.lang.".toList ++ shown)
      (noDot : '.' ∉ shown) : name.Shows shown
  | dotted (h : ∀ rest, name.dotted = "java.lang.".toList ++ rest → '.' ∈ rest) :
      name.Shows name.dotted

end ClassName

namespace BaseType

def spelled : BaseType → List Char
  | primitive type => [type.letter]
  | named name => 'L' :: name.chars ++ [';']

inductive Shows : BaseType → List Char → Prop where
  | primitive (type : Primitive) : Shows (primitive type) type.keyword.toList
  | named {name : ClassName} {shown : List Char} (h : name.Shows shown) : Shows (named name) shown

end BaseType

def brackets (depth : Nat) : List Char := (List.replicate depth ['[', ']']).flatten

namespace FieldType

def spelled (type : FieldType) : List Char :=
  List.replicate type.depth '[' ++ type.base.spelled

inductive Shows (type : FieldType) : List Char → Prop where
  | intro {base : List Char} (h : type.base.Shows base) : type.Shows (base ++ brackets type.depth)

end FieldType

namespace MethodType

def spelledResult : Option FieldType → List Char
  | none => ['V']
  | some type => type.spelled

def spelled (type : MethodType) : List Char :=
  '(' :: type.parameters.flatMap FieldType.spelled ++ ')' :: spelledResult type.result

inductive ShowsResult : Option FieldType → List Char → Prop where
  | nothing : ShowsResult none "void".toList
  | type {type : FieldType} {shown : List Char} (h : type.Shows shown) :
      ShowsResult (some type) shown

inductive Shows (type : MethodType) (name : List Char) : List Char → Prop where
  | intro {result : List Char} {parameters : List (List Char)}
      (hresult : ShowsResult type.result result)
      (hparameters : List.Forall₂ FieldType.Shows type.parameters parameters) :
      type.Shows name
        (result ++ [' '] ++ name ++ ['('] ++ [',', ' '].intercalate parameters ++ [')'])

end MethodType

/-! ## One descriptor for each type -/

variable {rest rest' : List Char}

namespace Primitive

theorem letter_injective {p q : Primitive} (h : p.letter = q.letter) : p = q := by
  cases p <;> cases q <;> first | rfl | (simp [letter] at h)

theorem letter_ne (type : Primitive) :
    type.letter ≠ 'L' ∧ type.letter ≠ '[' ∧ type.letter ≠ ')' ∧ type.letter ≠ 'V' := by
  cases type <;> decide

theorem exists_letter_of_primitive? {c : Char} {keyword : String}
    (h : primitive? c = some keyword) : ∃ type : Primitive, type.letter = c := by
  unfold primitive? at h
  split at h
  · exact ⟨byte, rfl⟩
  · exact ⟨char, rfl⟩
  · exact ⟨double, rfl⟩
  · exact ⟨float, rfl⟩
  · exact ⟨int, rfl⟩
  · exact ⟨long, rfl⟩
  · exact ⟨short, rfl⟩
  · exact ⟨boolean, rfl⟩
  · cases h

end Primitive

namespace ClassName

theorem forall_chars_ne (name : ClassName) : ∀ c ∈ name.chars, decide (c ≠ ';') = true :=
  fun _ hc => decide_eq_true fun heq => name.noSemicolon (heq ▸ hc)

theorem takeWhile_chars (name : ClassName) (rest : List Char) :
    (name.chars ++ ';' :: rest).takeWhile (· ≠ ';') = name.chars := by
  rw [List.takeWhile_append_of_pos name.forall_chars_ne]
  simp

theorem dropWhile_chars (name : ClassName) (rest : List Char) :
    (name.chars ++ ';' :: rest).dropWhile (· ≠ ';') = ';' :: rest := by
  rw [List.dropWhile_append_of_pos name.forall_chars_ne]
  simp

theorem chars_append_inj {name other : ClassName}
    (h : name.chars ++ ';' :: rest = other.chars ++ ';' :: rest') :
    name = other ∧ rest = rest' := by
  have hchars := congrArg (List.takeWhile (· ≠ ';')) h
  rw [takeWhile_chars, takeWhile_chars] at hchars
  have hrest := congrArg (List.dropWhile (· ≠ ';')) h
  rw [dropWhile_chars, dropWhile_chars] at hrest
  cases name
  cases other
  cases hchars
  exact ⟨rfl, (List.cons.inj hrest).2⟩

end ClassName

namespace BaseType

theorem exists_eq_cons (type : BaseType) : ∃ c tail, type.spelled = c :: tail ∧
    c ≠ '[' ∧ c ≠ ')' ∧ c ≠ 'V' := by
  cases type with
  | primitive type => exact ⟨_, [], rfl, type.letter_ne.2⟩
  | named name => exact ⟨'L', name.chars ++ [';'], rfl, by decide⟩

theorem named_spelled_append (name : ClassName) (rest : List Char) :
    (named name).spelled ++ rest = 'L' :: (name.chars ++ ';' :: rest) := by
  simp [spelled]

theorem spelled_append_inj {type other : BaseType}
    (h : type.spelled ++ rest = other.spelled ++ rest') : type = other ∧ rest = rest' := by
  cases type with
  | primitive p =>
    cases other with
    | primitive q =>
      obtain ⟨hletter, hrest⟩ := List.cons.inj h
      exact ⟨by rw [Primitive.letter_injective hletter], hrest⟩
    | named name => exact absurd (List.cons.inj h).1 p.letter_ne.1
  | named name =>
    cases other with
    | primitive q => exact absurd (List.cons.inj h).1.symm q.letter_ne.1
    | named name' =>
      rw [named_spelled_append, named_spelled_append] at h
      obtain ⟨hname, hrest⟩ := ClassName.chars_append_inj (List.cons.inj h).2
      exact ⟨by rw [hname], hrest⟩

end BaseType

namespace FieldType

theorem takeWhile_spelled (type : FieldType) (rest : List Char) :
    (type.spelled ++ rest).takeWhile (· = '[') = List.replicate type.depth '[' := by
  obtain ⟨c, tail, hbase, hc, _⟩ := type.base.exists_eq_cons
  rw [spelled, hbase, List.append_assoc, List.takeWhile_append_of_pos (by simp)]
  simp [hc]

theorem dropWhile_spelled (type : FieldType) (rest : List Char) :
    (type.spelled ++ rest).dropWhile (· = '[') = type.base.spelled ++ rest := by
  obtain ⟨c, tail, hbase, hc, _⟩ := type.base.exists_eq_cons
  rw [spelled, hbase, List.append_assoc, List.dropWhile_append_of_pos (by simp)]
  simp [hc]

theorem spelled_append_inj {type other : FieldType}
    (h : type.spelled ++ rest = other.spelled ++ rest') : type = other ∧ rest = rest' := by
  have hdepth := congrArg (List.takeWhile (· = '[')) h
  rw [takeWhile_spelled, takeWhile_spelled] at hdepth
  have hbase := congrArg (List.dropWhile (· = '[')) h
  rw [dropWhile_spelled, dropWhile_spelled] at hbase
  obtain ⟨hbase, hrest⟩ := BaseType.spelled_append_inj hbase
  have hlength := congrArg List.length hdepth
  rw [List.length_replicate, List.length_replicate] at hlength
  cases type
  cases other
  cases hbase
  cases hlength
  exact ⟨rfl, hrest⟩

theorem exists_eq_cons (type : FieldType) : ∃ c tail, type.spelled = c :: tail ∧
    c ≠ ')' ∧ c ≠ 'V' := by
  obtain ⟨depth, base⟩ := type
  cases depth with
  | zero =>
    obtain ⟨c, tail, hbase, _, hc⟩ := base.exists_eq_cons
    exact ⟨c, tail, hbase, hc⟩
  | succ depth => exact ⟨'[', List.replicate depth '[' ++ base.spelled, rfl, by decide⟩

/-- A parenthesis ends the parameters, for no type begins with it. -/
theorem flatMap_spelled_inj {types others : List FieldType}
    (h : types.flatMap spelled ++ ')' :: rest = others.flatMap spelled ++ ')' :: rest') :
    types = others ∧ rest = rest' := by
  induction types generalizing others with
  | nil =>
    cases others with
    | nil => exact ⟨rfl, (List.cons.inj h).2⟩
    | cons other others =>
      obtain ⟨c, tail, hspelled, hc, _⟩ := other.exists_eq_cons
      rw [List.flatMap_cons, hspelled] at h
      exact absurd (List.cons.inj h).1.symm hc
  | cons type types ih =>
    cases others with
    | nil =>
      obtain ⟨c, tail, hspelled, hc, _⟩ := type.exists_eq_cons
      rw [List.flatMap_cons, hspelled] at h
      exact absurd (List.cons.inj h).1 hc
    | cons other others =>
      rw [List.flatMap_cons, List.flatMap_cons, List.append_assoc, List.append_assoc] at h
      obtain ⟨htype, htail⟩ := spelled_append_inj h
      obtain ⟨htypes, hrest⟩ := ih htail
      exact ⟨by rw [htype, htypes], hrest⟩

theorem spelled_ne_void (type : FieldType) : type.spelled ≠ ['V'] := by
  obtain ⟨c, tail, hspelled, _, hc⟩ := type.exists_eq_cons
  rw [hspelled]
  exact fun h => hc (List.cons.inj h).1

end FieldType

namespace MethodType

theorem spelledResult_inj {result other : Option FieldType}
    (h : spelledResult result = spelledResult other) : result = other := by
  cases result with
  | none =>
    cases other with
    | none => rfl
    | some other => exact absurd h.symm other.spelled_ne_void
  | some type =>
    cases other with
    | none => exact absurd h type.spelled_ne_void
    | some other =>
      have hempty : type.spelled ++ [] = other.spelled ++ [] := congrArg (· ++ []) h
      rw [(FieldType.spelled_append_inj hempty).1]

theorem spelled_injective {type other : MethodType} (h : type.spelled = other.spelled) :
    type = other := by
  obtain ⟨hparameters, hresult⟩ := FieldType.flatMap_spelled_inj (List.cons.inj h).2
  cases type
  cases other
  cases hparameters
  cases spelledResult_inj hresult
  rfl

end MethodType

/-! ## One reading for each type -/

namespace ClassName

theorem Shows.unique {name : ClassName} {shown shown' : List Char} (h : name.Shows shown)
    (h' : name.Shows shown') : shown = shown' := by
  cases h with
  | simple h noDot =>
    cases h' with
    | simple h' _ => exact List.append_cancel_left (h.symm.trans h')
    | dotted h' => exact absurd (h' _ h) noDot
  | dotted h =>
    cases h' with
    | simple h' noDot => exact absurd (h _ h') noDot
    | dotted _ => rfl

theorem shows_sourceName (name : ClassName) : name.Shows (sourceName name.chars) := by
  have hdotted : name.dotted = name.chars.map fun c => if c = '/' then '.' else c := rfl
  unfold sourceName
  rw [← hdotted]
  by_cases hpackage : hiddenPackage.isPrefixOf name.dotted
  · rw [if_pos hpackage]
    obtain ⟨rest, hrest⟩ := List.isPrefixOf_iff_prefix.mp hpackage
    have hdrop : name.dotted.drop hiddenPackage.length = rest := by rw [← hrest, List.drop_left]
    rw [hdrop]
    by_cases hdot : rest.contains '.'
    · rw [if_pos hdot]
      apply Shows.dotted
      intro rest' hrest'
      rw [← hrest] at hrest'
      rw [← List.append_cancel_left hrest']
      exact List.contains_iff_mem.mp hdot
    · rw [if_neg hdot]
      exact .simple hrest.symm fun hmem => hdot (List.contains_iff_mem.mpr hmem)
  · rw [if_neg hpackage]
    apply Shows.dotted
    intro rest hrest
    exact absurd (List.isPrefixOf_iff_prefix.mpr ⟨rest, hrest.symm⟩) hpackage

end ClassName

theorem BaseType.Shows.unique {type : BaseType} {shown shown' : List Char} (h : type.Shows shown)
    (h' : type.Shows shown') : shown = shown' := by
  cases h with
  | primitive type =>
    cases h' with
    | primitive _ => rfl
  | named h =>
    cases h' with
    | named h' => exact h.unique h'

theorem FieldType.Shows.unique {type : FieldType} {shown shown' : List Char} (h : type.Shows shown)
    (h' : type.Shows shown') : shown = shown' := by
  obtain ⟨hbase⟩ := h
  obtain ⟨hbase'⟩ := h'
  rw [hbase.unique hbase']

namespace MethodType

theorem ShowsResult.unique {result : Option FieldType} {shown shown' : List Char}
    (h : ShowsResult result shown) (h' : ShowsResult result shown') : shown = shown' := by
  cases h with
  | nothing =>
    cases h' with
    | nothing => rfl
  | type h =>
    cases h' with
    | type h' => exact h.unique h'

theorem parameters_unique {types : List FieldType} {shown shown' : List (List Char)}
    (h : List.Forall₂ FieldType.Shows types shown)
    (h' : List.Forall₂ FieldType.Shows types shown') : shown = shown' := by
  induction h generalizing shown' with
  | nil =>
    cases h' with
    | nil => rfl
  | cons hfirst _ ih =>
    cases h' with
    | cons hfirst' hrest' => rw [hfirst.unique hfirst', ih hrest']

theorem Shows.unique {type : MethodType} {name shown shown' : List Char} (h : type.Shows name shown)
    (h' : type.Shows name shown') : shown = shown' := by
  obtain ⟨hresult, hparameters⟩ := h
  obtain ⟨hresult', hparameters'⟩ := h'
  rw [hresult.unique hresult', parameters_unique hparameters hparameters']

end MethodType

end JarText.Descriptor
