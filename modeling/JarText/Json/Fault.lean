/-!
# Faults in JSON

What is wrong with a text that should be JSON, and where: lines and columns count from one and in
bytes, and a column is that of the last byte looked at.
-/

set_option autoImplicit false

namespace JarText

inductive JsonDefect where
  | endInValue
  | endInList
  | endInObject
  | endInString
  | noColon
  | noItemEnd
  | noFieldEnd
  | badWord
  | noValue
  | badEscape
  | badNumber
  | numberTooLarge
  | controlCharacter
  | badKey
  | loneSurrogate
  | halfSurrogatePair
  | trailingComma
  | trailingCharacters
  | tooDeep
  deriving Repr, DecidableEq

namespace JsonDefect

def message : JsonDefect → String
  | endInValue => "EOF while parsing a value"
  | endInList => "EOF while parsing a list"
  | endInObject => "EOF while parsing an object"
  | endInString => "EOF while parsing a string"
  | noColon => "expected `:`"
  | noItemEnd => "expected `,` or `]`"
  | noFieldEnd => "expected `,` or `\x7d`"
  | badWord => "expected ident"
  | noValue => "expected value"
  | badEscape => "invalid escape"
  | badNumber => "invalid number"
  | numberTooLarge => "number out of range"
  | controlCharacter => "control character (\\u0000-\\u001F) found while parsing a string"
  | badKey => "key must be a string"
  | loneSurrogate => "lone leading surrogate in hex escape"
  | halfSurrogatePair => "unexpected end of hex escape"
  | trailingComma => "trailing comma"
  | trailingCharacters => "trailing characters"
  | tooDeep => "recursion limit exceeded"

end JsonDefect

structure JsonFault where
  defect : JsonDefect
  line : Nat
  column : Nat
  deriving Repr, DecidableEq

namespace JsonFault

def message (fault : JsonFault) : String :=
  fault.defect.message ++ s!" at line {fault.line} column {fault.column}"

end JsonFault

end JarText
