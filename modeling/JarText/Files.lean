import JarText.Bytes
import JarText.Fault
import JarText.Text.Utf8

/-!
# Files

What a command asks of the files around it, and the paths by which it names them.
-/

set_option autoImplicit false

namespace JarText

inductive FileKind where
  | file
  | folder
  deriving Repr, DecidableEq

class Files (m : Type → Type) where
  read : String → m (Except FileFault Bytes)
  /-- Writes a file, in place of one that is there. -/
  write : String → Bytes → m (Except FileFault Unit)
  /-- What a path leads to, if to anything. -/
  kind? : String → m (Option FileKind)
  /-- The names in a folder, in any order. -/
  list : String → m (List (String × FileKind))

namespace Files

/-- Reads a file that has to be a text. -/
def readText {m : Type → Type} [Monad m] [Files m] (path : String) :
    m (Except FileFault String) := do
  match ← Files.read path with
  | .error fault => return .error fault
  | .ok bytes =>
    match Text.Utf8.decode? bytes with
    | some text => return .ok text
    | none => return .error .notText

end Files

/-! ## Paths -/

namespace Path

/-- The pieces of a path between its slashes, empty ones included. -/
def piecesOf : List Char → List (List Char)
  | [] => [[]]
  | c :: rest =>
    match piecesOf rest with
    | [] => [[c]]
    | piece :: pieces => if c = '/' then [] :: piece :: pieces else (c :: piece) :: pieces

def pieces (path : String) : List String :=
  (piecesOf path.toList).map String.ofList

def join (folder name : String) : String :=
  if folder.toList.getLast? = some '/' then folder ++ name else folder ++ "/" ++ name

def fileName (path : String) : String :=
  ((pieces path).getLast?).getD ""

/-- The most bytes of a path. -/
def maxLength : Nat := 4095

/-- The most bytes of a name. -/
def maxNameLength : Nat := 255

def size (text : String) : Nat := Text.Utf8.size text.toList

end Path

end JarText
