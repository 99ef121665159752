import JarText.Fault
import JarText.Text.Utf8

/-!
# Descriptors

The compact types of fields and methods, and how they read in source code: an array shows its
brackets after the type, and a class shows its dotted name, without the package that every source
file imports.
-/

set_option autoImplicit false

namespace JarText.Descriptor

/-- A place in a descriptor: its offset in bytes and the characters from there. -/
structure Place where
  offset : Nat
  rest : List Char

def primitive? : Char → Option String
  | 'B' => some "byte"
  | 'C' => some "char"
  | 'D' => some "double"
  | 'F' => some "float"
  | 'I' => some "int"
  | 'J' => some "long"
  | 'S' => some "short"
  | 'Z' => some "boolean"
  | _ => none

/-- The package that is not shown. -/
def hiddenPackage : List Char := "java.lang.".toList

def sourceName (name : List Char) : List Char :=
  let dotted := name.map fun c => if c = '/' then '.' else c
  if hiddenPackage.isPrefixOf dotted then
    let simple := dotted.drop hiddenPackage.length
    if simple.contains '.' then dotted else simple
  else dotted

/-- Reads the type without its array brackets. -/
def readBase (place : Place) : Except Fault (List Char × Place) :=
  match place.rest with
  | [] => .error (.malformed place.offset .endsBeforeType)
  | 'L' :: rest =>
    let name := rest.takeWhile (· ≠ ';')
    match rest.dropWhile (· ≠ ';') with
    | [] => .error (.malformed place.offset .unterminatedClass)
    | _ :: after =>
      if name.isEmpty then .error (.malformed place.offset .emptyClassName)
      else .ok (sourceName name, ⟨place.offset + 1 + Text.Utf8.size name + 1, after⟩)
  | c :: rest =>
    match primitive? c with
    | some keyword => .ok (keyword.toList, ⟨place.offset + 1, rest⟩)
    | none => .error (.malformed place.offset (.unexpectedChar c))

def readField (place : Place) : Except Fault (List Char × Place) :=
  let brackets := place.rest.takeWhile (· = '[')
  match readBase ⟨place.offset + brackets.length, place.rest.dropWhile (· = '[')⟩ with
  | .error fault => .error fault
  | .ok (base, after) => .ok (base ++ brackets.flatMap fun _ => ['[', ']'], after)

def fieldFrom (descriptor : List Char) : Except Fault (List Char) :=
  match readField ⟨0, descriptor⟩ with
  | .error fault => .error fault
  | .ok (rendered, ⟨_, []⟩) => .ok rendered
  | .ok (_, ⟨offset, _ :: _⟩) =>
    .error (.malformed offset (.trailingInField (String.ofList descriptor)))

def field (descriptor : String) : Except Fault String :=
  String.ofList <$> fieldFrom descriptor.toList

/-- Reads parameters up to the closing parenthesis. `fuel` bounds their number. -/
def readParameters : (fuel : Nat) → (done : List (List Char)) → Place →
    Except Fault (List (List Char) × Place)
  | 0, _, place => .error (.malformed place.offset .endsBeforeType)
  | fuel + 1, done, place =>
    match place.rest with
    | ')' :: rest => .ok (done.reverse, ⟨place.offset + 1, rest⟩)
    | _ =>
      match readField place with
      | .error fault => .error fault
      | .ok (parameter, after) => readParameters fuel (parameter :: done) after

def commaSeparated (items : List (List Char)) : List Char :=
  List.intercalate [',', ' '] items

/-- Renders a method as its return type, its name and its parameters. -/
def method (name descriptor : String) : Except Fault String :=
  match descriptor.toList with
  | '(' :: rest => do
    let (parameters, after) ← readParameters (rest.length + 1) [] ⟨1, rest⟩
    let result ←
      if after.rest = ['V'] then .ok "void".toList
      else
        match fieldFrom after.rest with
        | .ok rendered => .ok rendered
        | .error _ => .error (.malformed after.offset (.badReturnType descriptor))
    return String.ofList (result ++ [' '] ++ name.toList ++ ['('] ++ commaSeparated parameters
      ++ [')'])
  | _ => .error (.malformed 0 (.noParameterList descriptor))

end JarText.Descriptor
