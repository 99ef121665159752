/-!
# Arguments

The command has two subcommands, which take paths and options. Arguments are looked at one by one
and the first that is wrong decides; asking for the version or for help ends the reading. Nothing is
an option after two dashes alone.
-/

set_option autoImplicit false

namespace JarText

inductive OutputFormat where
  /-- A line for each string. -/
  | text
  /-- A sheet to edit. -/
  | json
  deriving Repr, DecidableEq

structure ScanRequest where
  /-- A jar, or a folder to search for jars. -/
  path : String
  format : OutputFormat := .text
  /-- The words that a string has to hold to be shown. -/
  query : String := ""
  showBlank : Bool := false
  /-- Whether the static initializers of enums are scanned too. -/
  scanEnumInitializers : Bool := false
  /-- The classes between two reports of progress. -/
  interval : Nat := 100
  /-- The file to write to in place of the standard output. -/
  output : Option String := none
  deriving Repr, DecidableEq

structure ApplyRequest where
  jar : String
  sheet : String
  output : String := "Translated.jar"
  /-- Whether a jar that has changed is accepted, and a file that is there overwritten. -/
  force : Bool := false
  deriving Repr, DecidableEq

inductive Request where
  | scan (request : ScanRequest)
  | apply (request : ApplyRequest)
  /-- The version, under the name of the command or of a subcommand. -/
  | version (name : String)
  | help
  deriving Repr, DecidableEq

namespace Arguments

structure OptionSpec where
  long : String
  short : Option Char := none
  takesValue : Bool := false
  deriving Repr, DecidableEq

/-- What an argument says. -/
inductive Item where
  | flag (name : String)
  | setting (name value : String)
  | plain (value : String)
  | wrong
  deriving Repr, DecidableEq

def commonOptions : List OptionSpec :=
  [{ long := "verbose", short := some 'v' }, { long := "version", short := some 'V' },
   { long := "help", short := some 'h' }]

def scanOptions : List OptionSpec :=
  [{ long := "format", takesValue := true }, { long := "filter", takesValue := true },
   { long := "show-empty" }, { long := "include-enum-initializers" },
   { long := "progress-interval", takesValue := true },
   { long := "output", short := some 'o', takesValue := true }] ++ commonOptions

def applyOptions : List OptionSpec :=
  [{ long := "output", short := some 'o', takesValue := true }, { long := "force" }]
    ++ commonOptions

def looksLikeOption (argument : String) : Bool :=
  argument.toList.head? = some '-' && argument ≠ "-"

/-- A text before and after its first equals sign. -/
def splitValue : List Char → List Char × Option (List Char)
  | [] => ([], none)
  | c :: rest =>
    if c = '=' then ([], some rest)
    else
      let (name, value) := splitValue rest
      (c :: name, value)

/-- What a row of short options says, and the option whose value the next argument is. -/
def cluster (options : List OptionSpec) : List Char → List Item × Option String
  | [] => ([], none)
  | c :: rest =>
    match options.find? (·.short == some c) with
    | none => ([.wrong], none)
    | some option =>
      if option.takesValue then
        match rest with
        | [] => ([], some option.long)
        | '=' :: value | value => ([.setting option.long (String.ofList value)], none)
      else
        let (items, pending) := cluster options rest
        (.flag option.long :: items, pending)

/-- What a long option says, without its dashes, and the option whose value the next argument is. -/
def longOption (options : List OptionSpec) (text : List Char) : List Item × Option String :=
  let (name, value) := splitValue text
  match options.find? (·.long.toList == name), value with
  | none, _ => ([.wrong], none)
  | some option, none =>
    if option.takesValue then ([], some option.long) else ([.flag option.long], none)
  | some option, some value =>
    if option.takesValue then ([.setting option.long (String.ofList value)], none)
    else ([.wrong], none)

def optionItems (options : List OptionSpec) (argument : String) : List Item × Option String :=
  match argument.toList with
  | '-' :: '-' :: text => longOption options text
  | _ :: text => cluster options text
  | [] => ([.wrong], none)

/-- What the arguments of a subcommand say. `pending` is an option that waits for its value. -/
def items (options : List OptionSpec) : List String → (pending : Option String) → List Item
  | [], none => []
  | [], some _ => [.wrong]
  | argument :: rest, some name =>
    if looksLikeOption argument then [.wrong]
    else .setting name argument :: items options rest none
  | argument :: rest, none =>
    if argument = "--" then rest.map .plain
    else if looksLikeOption argument then
      let (found, pending) := optionItems options argument
      found ++ items options rest pending
    else .plain argument :: items options rest none

/-- A number of 64 bits, with or without a plus sign. -/
def word? (text : String) : Option Nat :=
  let digits :=
    match text.toList with
    | '+' :: rest => rest
    | rest => rest
  if digits.isEmpty || !digits.all Char.isDigit then none
  else
    let n := digits.foldl (fun n c => n * 10 + (c.toNat - '0'.toNat)) 0
    if n < UInt64.size then some n else none

def format? (text : String) : Option OutputFormat :=
  if text = "text" then some .text else if text = "json" then some .json else none

def path? (text : String) : Option String :=
  if text.isEmpty then none else some text

def setOnce {α : Type} (old : Option α) (new : Option α) : Option (Option α) :=
  match old, new with
  | none, some value => some (some value)
  | _, _ => none

structure Settings where
  paths : List String := []
  format : Option OutputFormat := none
  query : Option String := none
  interval : Option Nat := none
  output : Option String := none
  flags : List String := []
  deriving Repr, DecidableEq

namespace Settings

def set (settings : Settings) (name value : String) : Option Settings :=
  match name with
  | "format" => do return { settings with format := ← setOnce settings.format (format? value) }
  | "filter" => do return { settings with query := ← setOnce settings.query (some value) }
  | "progress-interval" => do
    return { settings with interval := ← setOnce settings.interval (word? value) }
  | "output" => do return { settings with output := ← setOnce settings.output (path? value) }
  | _ => none

/-- Takes in an option without a value. Only the one for more messages may be repeated. -/
def flag (settings : Settings) (name : String) : Option Settings :=
  if name = "verbose" then some settings
  else if settings.flags.contains name then none
  else some { settings with flags := name :: settings.flags }

def path (settings : Settings) (most : Nat) (value : String) : Option Settings := do
  let value ← path? value
  if settings.paths.length < most then some { settings with paths := settings.paths ++ [value] }
  else none

end Settings

/-- Takes in what was said one by one, up to `most` paths. -/
def settle (name : String) (most : Nat) (finish : Settings → Option Request) :
    List Item → Settings → Option Request
  | [], settings => finish settings
  | .wrong :: _, _ => none
  | .flag "version" :: _, _ => some (.version name)
  | .flag "help" :: _, _ => some .help
  | .flag flag :: rest, settings => do
    settle name most finish rest (← settings.flag flag)
  | .setting option value :: rest, settings => do
    settle name most finish rest (← settings.set option value)
  | .plain value :: rest, settings => do
    settle name most finish rest (← settings.path most value)

def scanRequest (settings : Settings) : Option Request :=
  match settings.paths with
  | [path] =>
    some (.scan
      { path, format := settings.format.getD .text, query := settings.query.getD ""
        showBlank := settings.flags.contains "show-empty"
        scanEnumInitializers := settings.flags.contains "include-enum-initializers"
        interval := settings.interval.getD 100, output := settings.output })
  | _ => none

def applyRequest (settings : Settings) : Option Request :=
  match settings.paths with
  | [jar, sheet] =>
    some (.apply
      { jar, sheet, output := settings.output.getD "Translated.jar"
        force := settings.flags.contains "force" })
  | _ => none

/-- What a row of options before the subcommand asks for: to go on, or something else. -/
def leading : List Item → Option (Option Request)
  | [] => some none
  | .flag "verbose" :: rest => leading rest
  | .flag "version" :: _ => some (some (.version "jarloc"))
  | .flag "help" :: _ => some (some .help)
  | _ => none

/-- Whether there is help on a topic: on the whole command, or on one subcommand, which has none of
its own below it. -/
def isTopic : List String → Bool
  | [] => true
  | [topic] => topic = "scan" || topic = "apply" || topic = "help"
  | _ => false

def parse : List String → Option Request
  | [] => none
  | argument :: rest =>
    if argument = "--" then none
    else if looksLikeOption argument then
      match leading (optionItems commonOptions argument).1 with
      | none => none
      | some (some request) => some request
      | some none => parse rest
    else if argument = "scan" then
      settle "jarloc-scan" 1 scanRequest (items scanOptions rest none) {}
    else if argument = "apply" then
      settle "jarloc-apply" 2 applyRequest (items applyOptions rest none) {}
    else if argument = "help" then if isTopic rest then some .help else none
    else none

end Arguments

end JarText
