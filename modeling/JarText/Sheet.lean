import JarText.Edit
import JarText.Hash.Blake3
import JarText.Json.Reader

/-!
# Edit sheets

A sheet lists the strings of one jar for someone to edit. It names the jar by the fingerprint of its
bytes, so that a sheet is not applied to another jar by mistake. A record whose value was not
changed makes no edit, and so leaves even a text alone that could not be shown as it is.
-/

set_option autoImplicit false

namespace JarText

structure SheetRecord where
  id : Nat
  /-- The archive entry of the class. -/
  entry : String
  textIndex : UInt16
  className : String
  method : String
  line : Option UInt16
  context : Option String
  /-- The text as it was found. -/
  before : String
  /-- The text to be put in its place. -/
  value : String
  deriving Repr, DecidableEq

structure Sheet where
  /-- The file name of the jar. -/
  jar : String
  fingerprint : String
  strings : List SheetRecord
  deriving Repr, DecidableEq

inductive SheetFault where
  | malformed (fault : JsonFault)
  | noSheet
  deriving Repr, DecidableEq

namespace SheetFault

def message : SheetFault → String
  | malformed fault => fault.message
  | noSheet => "data did not match any variant of untagged enum SheetFile"

end SheetFault

def fingerprint (bytes : Bytes) : String :=
  String.join ((Blake3.hash bytes).map fun byte => Text.hex 2 byte.toNat)

namespace SheetRecord

/-- The record of a string that was found, not yet edited. -/
def ofFound (found : FoundString) : SheetRecord :=
  { id := found.id, entry := found.entry, textIndex := found.textIndex
    className := found.className, method := found.method, line := found.line
    context := found.use.map Use.name, before := found.value, value := found.value }

def isChanged (record : SheetRecord) : Bool := record.value != record.before

def edit (record : SheetRecord) : Edit := ⟨record.entry, record.textIndex, record.value⟩

end SheetRecord

namespace Sheet

def edits (sheet : Sheet) : List Edit :=
  (sheet.strings.filter (·.isChanged)).map (·.edit)

end Sheet

/-! ## Sheets as JSON -/

namespace Json

def string? : Json → Option String
  | string value => some value
  | _ => none

def natural? : Json → Option Nat
  | natural value => some value
  | _ => none

def uint16? (json : Json) : Option UInt16 := do
  let n ← json.natural?
  if n < UInt16.size then some (UInt16.ofNat n) else none

def list? {α : Type} (read : Json → Option α) : Json → Option (List α)
  | array items => items.mapM read
  | _ => none

/-- The value, or nothing for `null`. -/
def nullable? {α : Type} (read : Json → Option α) : Json → Option (Option α)
  | null => some none
  | json => (read json).map some

def field? {α : Type} (fields : List (String × Json)) (name : String) (read : Json → Option α) :
    Option α :=
  match fields.filter (·.1 == name) with
  | [field] => read field.2
  | _ => none

/-- A field that may be left out, but not repeated. -/
def optionalField? {α : Type} (fields : List (String × Json)) (name : String)
    (read : Json → Option α) : Option (Option α) :=
  match fields.filter (·.1 == name) with
  | [] => some none
  | [field] => nullable? read field.2
  | _ => none

end Json

namespace SheetRecord

def toJson (record : SheetRecord) : Json :=
  let line := record.line.map fun line => ("line", Json.natural line.toNat)
  let context := record.context.map fun context => ("context", Json.string context)
  .object ([("id", .natural record.id), ("entry", .string record.entry),
      ("utf8_index", .natural record.textIndex.toNat), ("class", .string record.className),
      ("method", .string record.method)]
    ++ line.toList ++ context.toList
    ++ [("original", .string record.before), ("value", .string record.value)])

def ofJson? : Json → Option SheetRecord
  | .object fields => do
    return { id := ← Json.field? fields "id" Json.natural?
             entry := ← Json.field? fields "entry" Json.string?
             textIndex := ← Json.field? fields "utf8_index" Json.uint16?
             className := ← Json.field? fields "class" Json.string?
             method := ← Json.field? fields "method" Json.string?
             line := ← Json.optionalField? fields "line" Json.uint16?
             context := ← Json.optionalField? fields "context" Json.string?
             before := ← Json.field? fields "original" Json.string?
             value := ← Json.field? fields "value" Json.string? }
  | .array [id, entry, textIndex, className, method, line, context, before, value] => do
    return { id := ← id.natural?, entry := ← entry.string?, textIndex := ← textIndex.uint16?
             className := ← className.string?, method := ← method.string?
             line := ← line.nullable? Json.uint16?, context := ← context.nullable? Json.string?
             before := ← before.string?, value := ← value.string? }
  | _ => none

end SheetRecord

namespace Sheet

def toJson (sheet : Sheet) : Json :=
  .object [("jar", .string sheet.jar), ("fingerprint", .string sheet.fingerprint),
    ("strings", .array (sheet.strings.map SheetRecord.toJson))]

def ofJson? : Json → Option Sheet
  | .object fields => do
    return { jar := ← Json.field? fields "jar" Json.string?
             fingerprint := ← Json.field? fields "fingerprint" Json.string?
             strings := ← Json.field? fields "strings" (Json.list? SheetRecord.ofJson?) }
  | .array [jar, fingerprint, strings] => do
    return { jar := ← jar.string?, fingerprint := ← fingerprint.string?
             strings := ← strings.list? SheetRecord.ofJson? }
  | _ => none

/-- Reads one sheet or a list of them. -/
def listOfJson? (json : Json) : Option (List Sheet) :=
  match ofJson? json with
  | some sheet => some [sheet]
  | none => json.list? ofJson?

/-- Reads the sheets in a text. What follows the value is looked at only if the value is right. -/
def parse (text : String) : Except SheetFault (List Sheet) :=
  match Json.readValue text with
  | .error stop => .error (.malformed (stop.fault text))
  | .ok (json, cursor) =>
    match listOfJson? json with
    | none => .error .noSheet
    | some sheets =>
      match Json.checkEnd cursor with
      | .error stop => .error (.malformed (stop.fault text))
      | .ok () => .ok sheets

end Sheet

end JarText
