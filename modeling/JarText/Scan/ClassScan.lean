import Std.Data.TreeSet.Basic
import JarText.Scan.Location
import JarText.Scan.Use

/-!
# The texts of a class

`ClassScan.scan` finds every text that the methods of a class load, once for each text, in the
order of the first loads. Texts are numbered from zero in that order. Anything that cannot be
decoded on the way fails the scan of the whole class.
-/

set_option autoImplicit false

namespace JarText

structure FoundString where
  id : Nat
  /-- The archive entry of the class. -/
  entry : String
  /-- The index of the text, which an edit names. -/
  textIndex : UInt16
  /-- The index of the string constant that the load names. -/
  stringIndex : UInt16
  value : String
  className : String
  method : String
  line : Option UInt16
  use : Option Use
  deriving Repr, DecidableEq

structure MethodStrings where
  index : Nat
  signature : String
  strings : List FoundString
  deriving Repr, DecidableEq

structure ClassScan where
  entry : String
  className : String
  methods : List MethodStrings
  deriving Repr, DecidableEq

structure ScanConfig where
  /-- Whether the static initializer of an enum is passed over: its texts are the names of the
  constants. -/
  skipEnumInitializers : Bool := true
  deriving Repr, DecidableEq

namespace ClassScan

def strings (scan : ClassScan) : List FoundString :=
  scan.methods.flatMap (·.strings)

def length (scan : ClassScan) : Nat :=
  scan.methods.foldl (fun total method => total + method.strings.length) 0

theorem length_eq (scan : ClassScan) : scan.length = scan.strings.length := by
  rw [length, strings, List.length_flatMap, List.sum_eq_foldl, List.foldl_map]

def isEmpty (scan : ClassScan) : Bool := scan.methods.isEmpty

/-- The same scan with its numbers moved up. -/
def shift (start : Nat) (scan : ClassScan) : ClassScan :=
  { scan with methods := scan.methods.map fun method =>
      { method with strings := method.strings.map fun found =>
          { found with id := start + found.id } } }

/-- The string constant that an instruction loads and the text that it names. -/
def stringLoad? (pool : Pool) (instruction : Instruction) :
    Except Fault (Option (UInt16 × UInt16)) :=
  match instruction.loadIndex? with
  | none => .ok none
  | some index => do
    match ← pool.get index with
    | .string _ =>
      let target ← pool.textIndex index
      return some (index, target)
    | _ => return none

/-- What is known of a text at its first load. -/
def describe (entry : String) (pool : Pool) (locations : Except Fault (Nat → Location))
    (id : Nat) (stringIndex textIndex : UInt16) (offset : Nat) (after : List Instruction) :
    Except Fault FoundString := do
  let value ← pool.text textIndex
  let location := (← locations) offset
  return { id, entry, textIndex, stringIndex, value, className := location.className,
           method := location.method, line := location.line, use := Use.next? pool after }

/-- Finds the texts that a row of instructions is the first to load. `seen` holds the texts found
before in the class, `done` those found in the method, last first. A method whose locations cannot be
told fails with its first text only. -/
def stringsFrom (entry : String) (pool : Pool) (locations : Except Fault (Nat → Location)) :
    List Instruction → (seen : Std.TreeSet UInt16) → (done : List FoundString) →
    Except Fault (List FoundString × Std.TreeSet UInt16)
  | [], seen, done => .ok (done.reverse, seen)
  | instruction :: after, seen, done =>
    match stringLoad? pool instruction with
    | .error fault => .error fault
    | .ok none => stringsFrom entry pool locations after seen done
    | .ok (some (stringIndex, textIndex)) =>
      if seen.contains textIndex then stringsFrom entry pool locations after seen done
      else
        match describe entry pool locations seen.size stringIndex textIndex
            instruction.offset after with
        | .error fault => .error fault
        | .ok found =>
          stringsFrom entry pool locations after (seen.insert textIndex) (found :: done)

def isEnumInitializer (file : ClassFile) (name descriptor : String) : Bool :=
  file.isEnum && name == "<clinit>" && descriptor == "()V"

def scanMethod (config : ScanConfig) (entry : String) (file : ClassFile) (index : Nat)
    (method : Member) (seen : Std.TreeSet UInt16) :
    Except Fault (Option MethodStrings × Std.TreeSet UInt16) := do
  if method.isAbstract then return (none, seen)
  let name ← file.pool.text method.name
  let descriptor ← file.pool.text method.descriptor
  if config.skipEnumInitializers && isEnumInitializer file name descriptor then
    return (none, seen)
  let some body ← method.body file.pool | return (none, seen)
  if body.code.isEmpty then return (none, seen)
  let instructions ← Instruction.decode body.code
  let locations := Location.ofBody file method body
  let (strings, seen) ← stringsFrom entry file.pool locations instructions seen []
  if strings.isEmpty then return (none, seen)
  return (some { index, signature := name ++ descriptor, strings }, seen)

def methodsFrom (config : ScanConfig) (entry : String) (file : ClassFile) :
    List Member → (index : Nat) → (seen : Std.TreeSet UInt16) → (done : List MethodStrings) →
    Except Fault (List MethodStrings)
  | [], _, _, done => .ok done.reverse
  | method :: rest, index, seen, done =>
    match scanMethod config entry file index method seen with
    | .error fault => .error fault
    | .ok (none, seen) => methodsFrom config entry file rest (index + 1) seen done
    | .ok (some strings, seen) =>
      methodsFrom config entry file rest (index + 1) seen (strings :: done)

def scan (config : ScanConfig) (entry : String) (data : Bytes) : Except Fault ClassScan := do
  let file ← ClassFile.read data
  let className ← file.className
  let methods ← methodsFrom config entry file file.methods 0 ∅ []
  return { entry, className, methods }

end ClassScan

end JarText
