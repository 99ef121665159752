import JarText.ClassFile

/-!
# Method bodies

What a method's `Code` holds, and the tables in it that give the source line of each offset.
-/

set_option autoImplicit false

namespace JarText

/-- The body of a method. The exception table is passed over. -/
structure CodeBody where
  maxStack : UInt16
  maxLocals : UInt16
  code : Bytes
  attributes : List Attribute
  deriving Repr, DecidableEq

/-- A source line and the offset where it begins. -/
structure LineRow where
  start : UInt16
  line : UInt16
  deriving Repr, DecidableEq

namespace CodeBody

def read : Reader CodeBody := do
  let maxStack ← Reader.uint16 "Code max_stack"
  let maxLocals ← Reader.uint16 "Code max_locals"
  let length ← Reader.uint32 "Code code_length"
  let code ← Reader.take length.toNat "Code bytecode"
  let handlers ← Reader.uint16 "Code exception_table_length"
  let _ ← Reader.take (handlers.toNat * 8) "Code exception table"
  let attributes ← Attribute.readAll
  return { maxStack, maxLocals, code, attributes }

/-- Reads a body from the payload of an attribute. -/
def ofInfo (info : Bytes) : Except Fault CodeBody := Reader.runFront read info

end CodeBody

namespace LineRow

def read : Reader LineRow := do
  let start ← Reader.uint16 "LineNumberTable start_pc"
  let line ← Reader.uint16 "LineNumberTable line_number"
  return { start, line }

def tableOfInfo (info : Bytes) : Except Fault (List LineRow) :=
  Reader.runFront (Reader.counted "LineNumberTable length" read) info

end LineRow

namespace CodeBody

/-- The rows of every line table of a body, in the order of the tables. -/
def lineRows (body : CodeBody) (pool : Pool) : Except Fault (List LineRow) := do
  let name := Text.Utf8.encode "LineNumberTable"
  let tables ← (body.attributes.filter (·.isNamed pool name)).mapM
    fun attr => LineRow.tableOfInfo attr.info
  return tables.flatten

end CodeBody

namespace Member

def body (member : Member) (pool : Pool) : Except Fault (Option CodeBody) :=
  match Attribute.find? member.attributes pool "Code" with
  | none => .ok none
  | some attr => some <$> CodeBody.ofInfo attr.info

end Member

/-- The line of an offset: that of the first row which starts at or before it and whose successor,
if there is one, starts after it. -/
def lineAt? : List LineRow → Nat → Option UInt16
  | [], _ => none
  | [row], offset => if row.start.toNat ≤ offset then some row.line else none
  | row :: next :: rest, offset =>
    if row.start.toNat ≤ offset ∧ offset < next.start.toNat then some row.line
    else lineAt? (next :: rest) offset

end JarText
