import JarText.Command.Run

/-!
# The program

Runs the command on the files of the system.
-/

set_option autoImplicit false

namespace JarText

/-- The fault that stands for an error of the system. -/
def FileFault.ofError (error : IO.Error) : FileFault :=
  match error with
  | .noFileOrDirectory .. => .notFound
  | .inappropriateType _ 20 _ => .notDirectory
  | .inappropriateType _ 21 _ => .isDirectory
  | error => .other (toString error)

/-- The answer of the system, or the fault that it met. -/
def answered {α : Type} (action : IO α) : IO (Except FileFault α) := do
  try return .ok (← action)
  catch error => return .error (.ofError error)

instance : Files IO where
  read path := answered do return (← IO.FS.readBinFile path).toList
  write path bytes := answered (IO.FS.writeBinFile path (ByteArray.mk bytes.toArray))
  kind? path := do
    let place := (← IO.currentDir) / path
    if ← place.isDir then return some .folder
    else if ← place.pathExists then return some .file
    else return none
  list path := do
    match ← answered ((← IO.currentDir) / path).readDir with
    | .error _ => return []
    | .ok entries =>
      entries.toList.filterMapM fun entry => do
        match ← answered entry.path.symlinkMetadata with
        | .ok metadata =>
          match metadata.type with
          | .file => return some (entry.fileName, .file)
          | .dir => return some (entry.fileName, .folder)
          | _ => return none
        | .error _ => return none

end JarText

def main (arguments : List String) : IO UInt32 := do
  let outcome ← JarText.Command.run (m := IO) arguments
  (← IO.getStderr).putStr outcome.messages
  (← IO.getStdout).putStr outcome.output
  return UInt32.ofNat outcome.code
