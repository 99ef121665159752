import JarText.Code.Instruction
import JarText.Pool

/-!
# What a text is used for

A loaded text has a known use when the very next instruction hands it to one of a few interface
methods. Whatever cannot be resolved has no known use.
-/

set_option autoImplicit false

namespace JarText

inductive Use where
  | sendMessage
  | itemDisplayName
  deriving Repr, DecidableEq

namespace Use

def name : Use → String
  | sendMessage => "SendMessage"
  | itemDisplayName => "ItemDisplayName"

/-- The methods that take a text to show, and what they show it as. -/
def sinks : List (String × Use) :=
  [("org/bukkit/command/CommandSender#sendMessage(Ljava/lang/String;)V", sendMessage),
   ("org/bukkit/entity/Player#sendMessage(Ljava/lang/String;)V", sendMessage),
   ("org/bukkit/inventory/meta/ItemMeta#setDisplayName(Ljava/lang/String;)V", itemDisplayName)]

def ofSignature? (signature : String) : Option Use :=
  sinks.lookup signature

/-- The use of a text that is loaded just before the instructions `after`. -/
def next? (pool : Pool) (after : List Instruction) : Option Use := do
  let next ← after.head?
  if next.opcode = Opcode.invokeInterface then
    let index ← next.uint16?
    match pool.memberRef index with
    | .ok ref => ofSignature? ref.signature
    | .error _ => none
  else none

end Use

end JarText
