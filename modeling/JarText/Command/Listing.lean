import JarText.Command.Arguments
import JarText.Descriptor
import JarText.Filter
import JarText.Jar
import JarText.Scan.ArchiveScan
import JarText.Sheet

/-!
# Listings

The strings of a jar that pass a query, as lines of text or as a sheet. The lines begin with one on
the whole jar, and go on with one for each string.
-/

set_option autoImplicit false

namespace JarText

/-- A scanned jar and the strings of it that are shown. -/
structure Listing where
  /-- The path of the jar. -/
  path : String
  fingerprint : String
  report : Report
  shown : List FoundString
  deriving Repr, DecidableEq

namespace Listing

def runConfig (request : ScanRequest) : RunConfig :=
  { interval := request.interval
    scan := { skipEnumInitializers := !request.scanEnumInitializers } }

def ofBytes (request : ScanRequest) (path : String) (bytes : Bytes) : Except Fault Listing := do
  let jar ← Jar.ofBytes bytes
  let report := (ArchiveScan.run (runConfig request) .never jar).report
  return { path, fingerprint := JarText.fingerprint bytes, report
           shown := Filter.strings (!request.showBlank) request.query report.strings }

/-- A method as it is shown: as a declaration if its signature can be read. -/
def methodText (signature : String) : String :=
  let name := signature.toList.takeWhile (· ≠ '(')
  let descriptor := signature.toList.dropWhile (· ≠ '(')
  if descriptor.isEmpty then signature
  else
    match Descriptor.method (String.ofList name) (String.ofList descriptor) with
    | .ok text => text
    | .error _ => signature

def stringLine (found : FoundString) : String :=
  let line := match found.line with
    | some line => s!":{line.toNat}"
    | none => ""
  let use := match found.use with
    | some use => " [" ++ use.name ++ "]"
    | none => ""
  s!"  #{found.id} " ++ found.className ++ line ++ " " ++ methodText found.method ++ use ++ " "
    ++ Text.quote found.value ++ "\n"

def headerLine (listing : Listing) : String :=
  listing.path ++ s!": {listing.shown.length} strings in {listing.report.classes.length} classes"
    ++ s!" ({listing.report.skipped.length} skipped)\n"

def text (listing : Listing) : String :=
  listing.headerLine ++ String.join (listing.shown.map stringLine)

def sheet (fileName : String) (listing : Listing) : Sheet :=
  { jar := fileName, fingerprint := listing.fingerprint
    strings := listing.shown.map SheetRecord.ofFound }

end Listing

end JarText
