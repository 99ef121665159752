import JarText.Text.Quoted

/-!
# JSON

A JSON value, and how it is written: each item of a list and each field of an object on a line of
its own, indented by two spaces for each level.
-/

set_option autoImplicit false

namespace JarText

inductive Json where
  | null
  | bool (value : Bool)
  /-- A number that is a natural of 64 bits. -/
  | natural (value : Nat)
  /-- Any other number, as it is written. -/
  | number (literal : String)
  | string (value : String)
  | array (items : List Json)
  /-- The fields in order, repeated names included. -/
  | object (fields : List (String × Json))
  deriving Repr

namespace Json

/-- A character as it stands in a string. -/
def escapeChar (c : Char) : List Char :=
  match c with
  | '"' => ['\\', '"']
  | '\\' => ['\\', '\\']
  | '\x08' => ['\\', 'b']
  | '\x0C' => ['\\', 'f']
  | '\n' => ['\\', 'n']
  | '\r' => ['\\', 'r']
  | '\t' => ['\\', 't']
  | c => if c.toNat < 0x20 then ['\\', 'u'] ++ (Text.hex 4 c.toNat).toList else [c]

def renderString (text : String) : List Char :=
  '"' :: text.toList.flatMap escapeChar ++ ['"']

def newLine (level : Nat) : List Char :=
  '\n' :: List.replicate (2 * level) ' '

/-- Texts on lines of their own between two brackets. -/
def enclose (opening closing : Char) (level : Nat) : List (List Char) → List Char
  | [] => [opening, closing]
  | first :: rest =>
    opening :: (newLine (level + 1) ++ first
      ++ rest.flatMap (fun text => ',' :: newLine (level + 1) ++ text)
      ++ newLine level ++ [closing])

mutual

def renderAt (level : Nat) : Json → List Char
  | null => "null".toList
  | bool true => "true".toList
  | bool false => "false".toList
  | natural value => (toString value).toList
  | number literal => literal.toList
  | string value => renderString value
  | array items => enclose '[' ']' level (renderItems (level + 1) items)
  | object fields => enclose '\x7b' '\x7d' level (renderFields (level + 1) fields)

def renderItems (level : Nat) : List Json → List (List Char)
  | [] => []
  | item :: rest => renderAt level item :: renderItems level rest

def renderFields (level : Nat) : List (String × Json) → List (List Char)
  | [] => []
  | (name, value) :: rest =>
    (renderString name ++ [':', ' '] ++ renderAt level value) :: renderFields level rest

end

def render (value : Json) : String := String.ofList (renderAt 0 value)

end Json

end JarText
