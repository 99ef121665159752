import JarText.Code.Body

/-!
# Locations

Where an instruction stands: its class, its method with the descriptor, and its source line where
the method carries one.
-/

set_option autoImplicit false

namespace JarText

structure Location where
  className : String
  method : String
  line : Option UInt16
  deriving Repr, DecidableEq

namespace Location

/-- The locations of the instructions in the body of a method, by their offsets. -/
def ofBody (file : ClassFile) (method : Member) (body : CodeBody) :
    Except Fault (Nat → Location) := do
  let className ← file.className
  let name ← file.pool.text method.name
  let descriptor ← file.pool.text method.descriptor
  let rows ← body.lineRows file.pool
  let signature := name ++ descriptor
  return fun offset => { className, method := signature, line := lineAt? rows offset }

def resolve (file : ClassFile) (method : Member) (body : CodeBody) (offset : Nat) :
    Except Fault Location :=
  (ofBody file method body).map (· offset)

end Location

end JarText
