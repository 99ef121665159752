import JarText.Bytes
import JarText.Fault

/-!
# Reading bytes in order

A reader takes bytes off the front of what is left and knows the offset that it has reached. It
fails with that offset when there are too few.
-/

set_option autoImplicit false

namespace JarText

/-- A place in a byte string: how many bytes lie before it, and those that follow. -/
structure Cursor where
  offset : Nat
  rest : Bytes
  deriving Repr, DecidableEq

namespace Cursor

def start (bytes : Bytes) : Cursor := ⟨0, bytes⟩

end Cursor

abbrev Reader (α : Type) := StateT Cursor (Except Fault) α

namespace Reader

variable {α : Type}

def fail (defect : Defect) : Reader α := fun cursor =>
  .error (.malformed cursor.offset defect)

def take (count : Nat) (part : String) : Reader Bytes := fun cursor =>
  let chunk := cursor.rest.take count
  if chunk.length < count then
    .error (.malformed cursor.offset (.truncated part count cursor.rest.length))
  else .ok (chunk, ⟨cursor.offset + count, cursor.rest.drop count⟩)

def uint8 (part : String) : Reader UInt8 :=
  (fun bytes => UInt8.ofNat (Bytes.value bytes)) <$> take 1 part

def uint16 (part : String) : Reader UInt16 :=
  (fun bytes => UInt16.ofNat (Bytes.value bytes)) <$> take 2 part

def uint32 (part : String) : Reader UInt32 :=
  (fun bytes => UInt32.ofNat (Bytes.value bytes)) <$> take 4 part

def uint64 (part : String) : Reader UInt64 :=
  (fun bytes => UInt64.ofNat (Bytes.value bytes)) <$> take 8 part

def manyFrom (read : Reader α) : (count : Nat) → (done : List α) → Reader (List α)
  | 0, done => fun cursor => .ok (done.reverse, cursor)
  | count + 1, done => fun cursor =>
    match read cursor with
    | .error fault => .error fault
    | .ok (item, next) => manyFrom read count (item :: done) next

def many (count : Nat) (read : Reader α) : Reader (List α) :=
  manyFrom read count []

def counted (part : String) (read : Reader α) : Reader (List α) := do
  let count ← uint16 part
  many count.toNat read

/-- Reads from the front of a byte string and leaves aside what follows. -/
def runFront (read : Reader α) (bytes : Bytes) : Except Fault α :=
  match read (Cursor.start bytes) with
  | .error fault => .error fault
  | .ok (item, _) => .ok item

end Reader

end JarText
