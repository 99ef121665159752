import JarText.Json.Basic
import JarText.Json.Fault

/-!
# Reading JSON

`Json.readValue` reads a value from the front of a text, `Json.checkEnd` that nothing but blanks
follows it. A number that goes beyond the range of binary floating point of 64 bits is refused, and
so is a value nested more than 127 levels deep.
-/

set_option autoImplicit false

namespace JarText

/-- A place in a text: how many bytes lie before it, and the characters that follow. -/
structure TextCursor where
  offset : Nat
  rest : List Char
  deriving Repr, DecidableEq

namespace TextCursor

def start (text : String) : TextCursor := ⟨0, text.toList⟩

end TextCursor

structure JsonStop where
  defect : JsonDefect
  offset : Nat
  deriving Repr, DecidableEq

namespace JsonStop

/-- The line and the column of a byte of a text. `position` is that of the characters looked at. -/
def lineColumn (offset : Nat) : List Char → (position line lineStart : Nat) → Nat × Nat
  | [], _, line, lineStart => (line, offset - lineStart)
  | c :: rest, position, line, lineStart =>
    if offset ≤ position then (line, offset - lineStart)
    else if c = '\n' then lineColumn offset rest (position + 1) (line + 1) (position + 1)
    else lineColumn offset rest (position + c.utf8Size) line lineStart

def fault (text : String) (stop : JsonStop) : JsonFault :=
  let (line, column) := lineColumn stop.offset text.toList 0 1 0
  { defect := stop.defect, line, column }

end JsonStop

abbrev JsonReader (α : Type) := StateT TextCursor (Except JsonStop) α

namespace JsonReader

/-- Fails after what was read. -/
def failHere {α : Type} (defect : JsonDefect) : JsonReader α := fun cursor =>
  .error ⟨defect, cursor.offset⟩

/-- Fails after the next byte, if there is one. -/
def failNext {α : Type} (defect : JsonDefect) : JsonReader α := fun cursor =>
  .error ⟨defect, if cursor.rest.isEmpty then cursor.offset else cursor.offset + 1⟩

def peek : JsonReader (Option Char) := fun cursor => .ok (cursor.rest.head?, cursor)

def advance : JsonReader Unit := fun cursor =>
  match cursor.rest with
  | [] => .ok ((), cursor)
  | c :: rest => .ok ((), ⟨cursor.offset + c.utf8Size, rest⟩)

/-- Takes the characters that pass a test, in reverse, on top of `done`. -/
def spanFrom (test : Char → Bool) (offset : Nat) (done : List Char) : List Char →
    List Char × TextCursor
  | [] => (done, ⟨offset, []⟩)
  | c :: rest =>
    if test c then spanFrom test (offset + c.utf8Size) (c :: done) rest
    else (done, ⟨offset, c :: rest⟩)

def takeWhile (test : Char → Bool) : JsonReader (List Char) := fun cursor =>
  let (done, cursor) := spanFrom test cursor.offset [] cursor.rest
  .ok (done.reverse, cursor)

def isBlank (c : Char) : Bool := c = ' ' || c = '\n' || c = '\t' || c = '\r'

/-- The next character that is not blank, which is left in place. -/
def peekSolid : JsonReader (Option Char) := do
  discard (takeWhile isBlank)
  peek

/-! ## Words and numbers -/

def word : List Char → JsonReader Unit
  | [] => pure ()
  | c :: rest => do
    match ← peek with
    | none => failHere .endInValue
    | some found => if found = c then do advance; word rest else failNext .badWord

def digitValue (c : Char) : Nat := c.toNat - '0'.toNat

/-- The most that is kept of the digits of a number. -/
def maxSignificand : Nat := UInt64.size - 1

/-- The digits of a number that are kept, and the power of ten that they are multiplied by. -/
structure Magnitude where
  significand : Nat
  exponent : Int
  deriving Repr, DecidableEq

namespace Magnitude

/-- Takes in digits before the point. From the first that does not fit on they only count. -/
def whole : List Char → Magnitude → Magnitude
  | [], magnitude => magnitude
  | digit :: rest, magnitude =>
    let longer := magnitude.significand * 10 + digitValue digit
    if maxSignificand < longer then
      { magnitude with exponent := magnitude.exponent + rest.length + 1 }
    else whole rest { magnitude with significand := longer }

/-- Takes in digits after the point, up to the first that does not fit. -/
def fraction : List Char → Magnitude → Magnitude
  | [], magnitude => magnitude
  | digit :: rest, magnitude =>
    let longer := magnitude.significand * 10 + digitValue digit
    if maxSignificand < longer then magnitude
    else fraction rest ⟨longer, magnitude.exponent - 1⟩

/-- The nearest number of 53 binary digits and zeros, of two the even one. -/
def round53 (n : Nat) : Nat :=
  let unit := Nat.pow 2 (n.log2 + 1 - 53)
  let quotient := n / unit
  let rest := 2 * (n % unit)
  if unit < rest ∨ (unit = rest ∧ quotient % 2 = 1) then (quotient + 1) * unit
  else quotient * unit

/-- The least number that rounds to none in range. -/
def beyondRange : Nat := Nat.pow 2 1024 - Nat.pow 2 970

/-- Whether the number lies beyond the range of binary floating point of 64 bits. -/
def isTooLarge (magnitude : Magnitude) : Bool :=
  0 < magnitude.significand &&
    (308 < magnitude.exponent ||
      (0 ≤ magnitude.exponent &&
        beyondRange ≤ round53 magnitude.significand * round53 (Nat.pow 10 magnitude.exponent.toNat)))

end Magnitude

/-- Takes the digits of an exponent on top of `n`, or as many as go beyond a word of 31 bits. -/
def exponentFrom (offset n : Nat) : List Char → Option Nat × TextCursor
  | [] => (some n, ⟨offset, []⟩)
  | c :: rest =>
    if c.isDigit then
      let longer := n * 10 + digitValue c
      if 0x80000000 ≤ longer then (none, ⟨offset + 1, rest⟩) else exponentFrom (offset + 1) longer rest
    else (some n, ⟨offset, c :: rest⟩)

def checkRange (magnitude : Magnitude) : JsonReader Unit :=
  if magnitude.isTooLarge then failHere .numberTooLarge else pure ()

def exponent (magnitude : Magnitude) : JsonReader Unit := do
  advance
  let sign ← peek
  if sign = some '+' ∨ sign = some '-' then advance
  match ← peek with
  | none => failHere .endInValue
  | some c =>
    if !c.isDigit then failNext .badNumber
    else
      let found ← fun cursor => .ok (exponentFrom cursor.offset 0 cursor.rest)
      match found with
      | some n =>
        let shift : Int := if sign = some '-' then -(n : Int) else n
        checkRange { magnitude with exponent := magnitude.exponent + shift }
      | none =>
        if 0 < magnitude.significand ∧ sign ≠ some '-' then failHere .numberTooLarge
        else discard (takeWhile Char.isDigit)

def afterWhole (magnitude : Magnitude) : JsonReader Bool := do
  match ← peek with
  | some '.' =>
    advance
    let digits ← takeWhile Char.isDigit
    if digits.isEmpty then
      match ← peek with
      | some _ => failNext .badNumber
      | none => failNext .endInValue
    else
      let magnitude := magnitude.fraction digits
      match ← peek with
      | some 'e' | some 'E' => exponent magnitude
      | _ => checkRange magnitude
      return true
  | some 'e' | some 'E' =>
    exponent magnitude
    return true
  | _ =>
    checkRange magnitude
    return false

/-- Reads a number after its sign: its magnitude, and whether it is written as a whole number. -/
def unsigned : JsonReader (Magnitude × Bool) := do
  match ← peek with
  | none => failHere .endInValue
  | some c =>
    if !c.isDigit then failNext .badNumber
    else
      let digits ← if c = '0' then do advance; pure [c] else takeWhile Char.isDigit
      if c = '0' then
        match ← peek with
        | some next => if next.isDigit then failNext .badNumber
        | none => pure ()
      let magnitude := Magnitude.whole digits ⟨0, 0⟩
      let isLong ← afterWhole magnitude
      return (magnitude, !isLong && magnitude.exponent == 0)

def number : JsonReader Json := do
  let start ← get
  let negative := start.rest.head? = some '-'
  if negative then advance
  let (magnitude, isWhole) ← unsigned
  let stop ← get
  if isWhole && !negative then return .natural magnitude.significand
  else return .number (String.ofList (start.rest.take (stop.offset - start.offset)))

/-! ## Strings -/

def hexValue? (c : Char) : Option Nat :=
  if c.isDigit then some (digitValue c)
  else if 'a' ≤ c ∧ c ≤ 'f' then some (c.toNat - 'a'.toNat + 10)
  else if 'A' ≤ c ∧ c ≤ 'F' then some (c.toNat - 'A'.toNat + 10)
  else none

def fourDigits : JsonReader Nat := fun cursor =>
  let size := (cursor.rest.take 4).foldl (fun n c => n + c.utf8Size) 0
  if size < 4 then .error ⟨.endInString, cursor.offset + size⟩
  else
    match (cursor.rest.take 4).mapM hexValue? with
    | some digits =>
      .ok (digits.foldl (fun n digit => n * 16 + digit) 0, ⟨cursor.offset + 4, cursor.rest.drop 4⟩)
    | none => .error ⟨.badEscape, cursor.offset + 4⟩

/-- Takes a character that has to follow the first half of a surrogate pair. -/
def pairMark (mark : Char) : JsonReader Unit := do
  match ← peek with
  | none => failHere .endInString
  | some c => if c = mark then advance else failNext .halfSurrogatePair

/-- Reads a character by its number, or by the two halves of its surrogate pair. -/
def numberedChar : JsonReader Char := do
  let high ← fourDigits
  if 0xDC00 ≤ high ∧ high < 0xE000 then failHere .loneSurrogate
  else if 0xD800 ≤ high ∧ high < 0xDC00 then do
    pairMark '\\'
    pairMark 'u'
    let low ← fourDigits
    if 0xDC00 ≤ low ∧ low < 0xE000 then
      return Char.ofNat (0x10000 + (high - 0xD800) * 0x400 + (low - 0xDC00))
    else failHere .loneSurrogate
  else return Char.ofNat high

def escaped : JsonReader Char := do
  match ← peek with
  | none => failHere .endInString
  | some c =>
    let simple (value : Char) : JsonReader Char := do
      advance
      return value
    match c with
    | '"' | '\\' | '/' => simple c
    | 'b' => simple '\x08'
    | 'f' => simple '\x0C'
    | 'n' => simple '\n'
    | 'r' => simple '\r'
    | 't' => simple '\t'
    | 'u' => do
      advance
      numberedChar
    | _ => failNext .badEscape

/-- Reads a string after its opening quote. `fuel` bounds its characters. -/
def stringFrom : (fuel : Nat) → (done : List Char) → JsonReader String
  | 0, _ => failHere .endInString
  | fuel + 1, done => fun cursor =>
    match cursor.rest with
    | [] => .error ⟨.endInString, cursor.offset⟩
    | '"' :: rest => .ok (String.ofList done.reverse, ⟨cursor.offset + 1, rest⟩)
    | '\\' :: rest =>
      match escaped ⟨cursor.offset + 1, rest⟩ with
      | .error stop => .error stop
      | .ok (c, cursor) => stringFrom fuel (c :: done) cursor
    | c :: rest =>
      if c.toNat < 0x20 then .error ⟨.controlCharacter, cursor.offset + 1⟩
      else stringFrom fuel (c :: done) ⟨cursor.offset + c.utf8Size, rest⟩

/-! ## Values -/

/-- Whether another item follows; a comma before it is passed over. -/
def hasItem (first : Bool) : JsonReader Bool := do
  match ← peekSolid with
  | none => failNext .endInList
  | some ']' => return false
  | some c =>
    if first then return true
    else if c = ',' then
      advance
      match ← peekSolid with
      | some ']' => failNext .trailingComma
      | some _ => return true
      | none => failNext .endInValue
    else failNext .noItemEnd

/-- Whether another field follows; a comma before it is passed over. -/
def hasField (first : Bool) : JsonReader Bool := do
  match ← peekSolid with
  | none => failNext .endInObject
  | some '\x7d' => return false
  | some c =>
    if first then
      if c = '"' then return true else failNext .badKey
    else if c = ',' then
      advance
      match ← peekSolid with
      | some '"' => return true
      | some '\x7d' => failNext .trailingComma
      | some _ => failNext .badKey
      | none => failNext .endInValue
    else failNext .noFieldEnd

def fieldName (limit : Nat) : JsonReader String := do
  advance
  let name ← stringFrom limit []
  match ← peekSolid with
  | some ':' =>
    advance
    return name
  | some _ => failNext .noColon
  | none => failNext .endInObject

mutual

/-- Reads a value. `limit` bounds the characters of a string, `fuel` the values read, and `levels`
is how deep they may be nested. -/
def value (limit : Nat) : (fuel levels : Nat) → JsonReader Json
  | 0, _ => failHere .endInValue
  | fuel + 1, levels => do
    match ← peekSolid with
    | none => failNext .endInValue
    | some 'n' => do
      advance
      word ['u', 'l', 'l']
      return .null
    | some 't' => do
      advance
      word ['r', 'u', 'e']
      return .bool true
    | some 'f' => do
      advance
      word ['a', 'l', 's', 'e']
      return .bool false
    | some '"' => do
      advance
      return .string (← stringFrom limit [])
    | some '[' =>
      match levels with
      | 0 => failNext .tooDeep
      | levels + 1 => do
        advance
        items limit fuel levels []
    | some '\x7b' =>
      match levels with
      | 0 => failNext .tooDeep
      | levels + 1 => do
        advance
        fields limit fuel levels []
    | some c => if c = '-' || c.isDigit then number else failNext .noValue

def items (limit : Nat) : (fuel levels : Nat) → (done : List Json) → JsonReader Json
  | 0, _, _ => failHere .endInValue
  | fuel + 1, levels, done => fun cursor =>
    match hasItem done.isEmpty cursor with
    | .error stop => .error stop
    | .ok (false, cursor) => (do advance; return .array done.reverse : JsonReader Json) cursor
    | .ok (true, cursor) =>
      match value limit fuel levels cursor with
      | .error stop => .error stop
      | .ok (item, cursor) => items limit fuel levels (item :: done) cursor

def fields (limit : Nat) : (fuel levels : Nat) → (done : List (String × Json)) → JsonReader Json
  | 0, _, _ => failHere .endInValue
  | fuel + 1, levels, done => fun cursor =>
    match hasField done.isEmpty cursor with
    | .error stop => .error stop
    | .ok (false, cursor) => (do advance; return .object done.reverse : JsonReader Json) cursor
    | .ok (true, cursor) =>
      match fieldName limit cursor with
      | .error stop => .error stop
      | .ok (name, cursor) =>
        match value limit fuel levels cursor with
        | .error stop => .error stop
        | .ok (item, cursor) => fields limit fuel levels ((name, item) :: done) cursor

end

end JsonReader

namespace Json

def maxLevels : Nat := 127

def readValue (text : String) : Except JsonStop (Json × TextCursor) :=
  JsonReader.value (text.length + 1) (2 * text.length + 2) maxLevels (.start text)

def checkEnd (cursor : TextCursor) : Except JsonStop Unit :=
  let check : JsonReader Unit := do
    match ← JsonReader.peekSolid with
    | some _ => JsonReader.failNext .trailingCharacters
    | none => pure ()
  (check cursor).map (·.1)

end Json

end JarText
