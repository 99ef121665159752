import JarText.Files
import JarText.Jar

/-!
# Jars in files

A jar is loaded from a file and saved to one.
-/

set_option autoImplicit false

namespace JarText.Jar

variable {m : Type → Type} [Monad m] [Files m]

def load (path : String) : m (Except Fault Jar) := do
  match ← Files.read path with
  | .ok bytes => return ofBytes bytes
  | .error cause => return .error (.fileRead path cause)

def save (path : String) (jar : Jar) : m (Except Fault Unit) := do
  match ← Files.write path jar.toBytes with
  | .ok () => return .ok ()
  | .error cause => return .error (.fileWrite path cause)

end JarText.Jar
