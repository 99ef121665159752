import JarText.Command.Listing
import JarText.Command.Outcome
import JarText.JarFile

/-!
# The command

`scan` lists the strings of a jar, or of each jar in a folder and the folders in it; `apply` writes
the changed values of a sheet into a jar. Both work on any files that can be asked for by
`Files`. In a folder, a jar that cannot be scanned is passed over with a warning.
-/

set_option autoImplicit false

namespace JarText.Command

variable {m : Type → Type} [Monad m] [Files m]

/-- A step of a command: it may fail, and it may give warnings, whose list grows at its end. -/
abbrev Step (m : Type → Type) (α : Type) := ExceptT Failure (StateT (List String) m) α

def warn (warnings : List String) : Step m Unit :=
  modifyThe (List String) (· ++ warnings)

def ask {α : Type} (question : m α) : Step m α :=
  ExceptT.lift (StateT.lift question)

/-- Goes on with a result, or fails with the messages of its fault beneath a message. -/
def orFail {α ε : Type} (message : String) (chain : ε → Failure) : Except ε α → Step m α
  | .ok result => pure result
  | .error fault => throw (message :: chain fault)

def fileChain (fault : FileFault) : Failure := [fault.message]

/-! ## Scanning -/

def isJarName (name : String) : Bool :=
  let chars := name.toList
  let ending := (chars.reverse.takeWhile (· ≠ '.')).reverse
  chars.head? ≠ some '.' && chars.contains '.' && ending.map Char.toLower = "jar".toList

/-- The jars in a folder and the folders in it, by name. `fuel` bounds how deep they lie. -/
def jarsIn : (fuel : Nat) → (folder : String) → m (List String)
  | 0, _ => pure []
  | fuel + 1, folder => do
    let names := (← Files.list folder).mergeSort fun a b => !(b.1 < a.1)
    names.foldlM (fun found (name, kind) => do
      let path := Path.join folder name
      match kind with
      | .file => return if isJarName name then found ++ [path] else found
      | .folder => return found ++ (← jarsIn fuel path)) []

def listing (request : ScanRequest) (path : String) : Step m Listing := do
  let failed := "Failed to load " ++ path
  let bytes ← orFail failed fileChain (← ask (Files.read path))
  let listing ← orFail failed Fault.chain (Listing.ofBytes request path bytes)
  warn (ArchiveScan.warnings listing.report)
  return listing

/-- The listings of jars; those that fail are passed over. -/
def listings (request : ScanRequest) : List String → Step m (List Listing)
  | [] => return []
  | path :: rest => do
    let found ← tryCatch (some <$> listing request path) fun failure => do
      warn ["Error processing " ++ path ++ ": " ++ Outcome.failureLine failure]
      return none
    return found.toList ++ (← listings request rest)

def sheetOf (listing : Listing) : Sheet := listing.sheet (Path.fileName listing.path)

/-- What is written for the jars of a folder. -/
def folderOutput (format : OutputFormat) (listings : List Listing) : String :=
  match format with
  | .text => String.join (listings.map Listing.text)
  | .json => (Json.array (listings.map fun listing => (sheetOf listing).toJson)).render

def jarOutput (format : OutputFormat) (listing : Listing) : String :=
  match format with
  | .text => listing.text
  | .json => (sheetOf listing).toJson.render

def endLine (text : String) : String :=
  if text.toList.getLast? = some '\n' then text else text ++ "\n"

def scanned (request : ScanRequest) : Step m String := do
  match ← ask (Files.kind? request.path) with
  | none => throw ["Input path does not exist: " ++ request.path]
  | some .file => return jarOutput request.format (← listing request request.path)
  | some .folder =>
    let jars ← ask (jarsIn Path.maxLength request.path)
    if jars.isEmpty then warn ["No jars found under " ++ request.path]
    return folderOutput request.format (← listings request jars)

def scan (request : ScanRequest) : Step m String := do
  let text ← scanned request
  match request.output with
  | none => return endLine text
  | some path =>
    orFail ("Failed to write file: " ++ path) fileChain
      (← ask (Files.write path (Text.Utf8.encode text)))
    return ""

/-! ## Applying -/

/-- The sheet made from the jar with a fingerprint, and what is said of it. With `force`, a single
sheet of another jar will do. -/
def select (sheets : List Sheet) (fingerprint : String) (force : Bool) :
    Except Failure (Sheet × List String) :=
  match sheets.find? (·.fingerprint == fingerprint), sheets with
  | some sheet, _ => .ok (sheet, [])
  | none, [sheet] =>
    if force then
      .ok (sheet, ["Jar does not match the sheet's fingerprint; applying anyway"])
    else .error ["Jar has changed since the sheet was made (use --force to apply anyway)"]
  | none, _ =>
    if force then .error ["Jar matches none of the sheets and --force needs exactly one"]
    else .error ["Jar has changed since the sheet was made (use --force to apply anyway)"]

def apply (request : ApplyRequest) : Step m String := do
  let loading := "Failed to load " ++ request.jar
  let bytes ← orFail loading fileChain (← ask (Files.read request.jar))
  let text ← orFail ("Failed to read sheet: " ++ request.sheet) fileChain
    (← ask (Files.readText request.sheet))
  let sheets ← orFail ("Failed to parse sheet: " ++ request.sheet)
    (fun fault => [SheetFault.message fault]) (Sheet.parse text)
  let (sheet, warnings) ← select sheets (fingerprint bytes) request.force
  warn warnings
  let edits := sheet.edits
  if edits.isEmpty then warn ["Sheet has no changed values; output will match the input"]
  if (← ask (Files.kind? request.output)).isSome && !request.force then
    throw ["File already exists: " ++ request.output ++ " (use --force to overwrite)"]
  let jar ← orFail loading Fault.chain (Jar.ofBytes bytes)
  let edited := Edit.applyToArchive jar edits
  warn edited.warnings
  let summary ← orFail ("Failed to apply " ++ request.sheet) Fault.chain edited.result
  orFail ("Failed to save " ++ request.output) Fault.chain
    (← ask (edited.archive.save request.output))
  return "Wrote " ++ request.output
    ++ s!" ({summary.edits} strings in {summary.entries} classes changed)\n"

/-! ## Both -/

def versionNumber : String := "0.1.0"

def usage : String :=
  "Usage: jarloc scan [OPTIONS] <PATH>\n       jarloc apply [OPTIONS] <JAR> <SHEET>\n"

def outcome (step : Step m String) : m Outcome := do
  match ← (step.run).run [] with
  | (.ok output, warnings) => return .success output warnings
  | (.error failure, warnings) => return .failed failure warnings

def carryOut : Request → m Outcome
  | .scan request => outcome (scan request)
  | .apply request => outcome (apply request)
  | .version name => return .success (name ++ " " ++ versionNumber ++ "\n") []
  | .help => return .success usage []

def run (arguments : List String) : m Outcome :=
  match Arguments.parse arguments with
  | some request => carryOut request
  | none => return .badArguments usage

end JarText.Command
