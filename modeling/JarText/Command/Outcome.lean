import JarText.Text.Quoted

/-!
# Outcomes

What a command leaves behind: an exit code, what it printed, and what it said besides. A warning is
a line of its own, in which control characters are shown by name. A failure is a message with its
causes beneath it, numbered if there are several.
-/

set_option autoImplicit false

namespace JarText

structure Outcome where
  code : Nat
  /-- The standard output. -/
  output : String
  /-- The standard error. -/
  messages : String
  deriving Repr, DecidableEq

/-- A failure, outermost first. -/
abbrev Failure := List String

namespace Outcome

/-- A character as it stands in a warning. -/
def logChar (c : Char) : List Char :=
  if c = '\x1b' ∨ c = '\x07' ∨ c = '\x08' ∨ c = '\x0c' ∨ c = '\x7f' then
    ['\\', 'x'] ++ (Text.hex 2 c.toNat).toList
  else if 0x80 ≤ c.toNat ∧ c.toNat < 0xA0 then
    ['\\', 'u', '\x7b'] ++ (Text.hex 1 c.toNat).toList ++ ['\x7d']
  else [c]

def warningLine (warning : String) : String :=
  "WARN " ++ String.ofList (warning.toList.flatMap logChar) ++ "\n"

/-- Sets the further lines of a text in by `margin`. -/
def indent (margin : Nat) (text : String) : List Char :=
  text.toList.flatMap fun c => if c = '\n' then c :: List.replicate margin ' ' else [c]

def numberedCause (number : Nat) (cause : String) : String :=
  let digits := toString number
  String.ofList (List.replicate (5 - digits.length) ' ') ++ digits ++ ": "
    ++ String.ofList (indent 7 cause) ++ "\n"

def causeText : List String → String
  | [] => ""
  | [cause] => "\n\nCaused by:\n    " ++ String.ofList (indent 4 cause) ++ "\n"
  | causes =>
    "\n\nCaused by:\n" ++ String.join (causes.zipIdx.map fun item => numberedCause item.2 item.1)

def failureText : Failure → String
  | [] => "Error: \n"
  | message :: causes =>
    "Error: " ++ message ++ (if causes.isEmpty then "\n" else causeText causes)

def failureLine (failure : Failure) : String := ": ".intercalate failure

def success (output : String) (warnings : List String) : Outcome :=
  { code := 0, output, messages := String.join (warnings.map warningLine) }

def failed (failure : Failure) (warnings : List String) : Outcome :=
  { code := 1, output := ""
    messages := String.join (warnings.map warningLine) ++ failureText failure }

/-- The outcome for arguments that say nothing that can be done. -/
def badArguments (usage : String) : Outcome := { code := 2, output := "", messages := usage }

end Outcome

end JarText
