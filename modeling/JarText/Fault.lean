import JarText.Text.Quoted

/-!
# Faults

What can go wrong, as causes. `Fault.message` is the one place that words a fault, and
`Fault.chain` lists a fault with the causes beneath it.
-/

set_option autoImplicit false

namespace JarText

open Text

inductive FileFault where
  | notFound
  | notDirectory
  | isDirectory
  | nameTooLong
  | notText
  | other (message : String)
  deriving Repr, DecidableEq

namespace FileFault

def message : FileFault → String
  | notFound => "No such file or directory (os error 2)"
  | notDirectory => "Not a directory (os error 20)"
  | isDirectory => "Is a directory (os error 21)"
  | nameTooLong => "File name too long (os error 36)"
  | notText => "stream did not contain valid UTF-8"
  | other message => message

end FileFault

/-- Why a zip container could not be opened or one of its entries not be read. -/
inductive ZipFault where
  | tooShort
  | noDirectoryEnd
  | badDirectoryBounds
  | noRoomForLongEnd
  | noLongEnd
  | badDirectoryHeader
  | badLocalHeader
  | offsetOverflow
  | missingCipherField
  | badCipherVendor
  | badCipherVersion
  | badCipherStrength
  | badCipherLength
  | multipleDisks
  | passwordRequired
  | unknownMethod
  | endOfBytes
  | badChecksum
  | corruptStream
  | incompleteStream
  deriving Repr, DecidableEq

namespace ZipFault

/-- Whether the fault arose while bytes were read, and not from what they say. -/
def isStream : ZipFault → Bool
  | endOfBytes | badChecksum | corruptStream | incompleteStream => true
  | _ => false

def message : ZipFault → String
  | tooShort => "invalid Zip archive: Invalid zip header"
  | noDirectoryEnd => "invalid Zip archive: Could not find central directory end"
  | badDirectoryBounds => "invalid Zip archive: Invalid central directory size or offset"
  | noRoomForLongEnd => "invalid Zip archive: File cannot contain ZIP64 central directory end"
  | noLongEnd => "invalid Zip archive: Could not find ZIP64 central directory end"
  | badDirectoryHeader => "invalid Zip archive: Invalid Central Directory header"
  | badLocalHeader => "invalid Zip archive: Invalid local file header"
  | offsetOverflow => "invalid Zip archive: Archive header is too large"
  | missingCipherField => "invalid Zip archive: AES encryption without AES extra data field"
  | badCipherVendor => "invalid Zip archive: Invalid AES vendor"
  | badCipherVersion => "invalid Zip archive: Invalid AES vendor version"
  | badCipherStrength => "invalid Zip archive: Invalid AES encryption strength"
  | badCipherLength =>
    "unsupported Zip archive: AES extra data field has an unsupported length"
  | multipleDisks =>
    "unsupported Zip archive: Support for multi-disk files is not implemented"
  | passwordRequired => "unsupported Zip archive: Password required to decrypt file"
  | unknownMethod => "unsupported Zip archive: Compression method not supported"
  | endOfBytes => "failed to fill whole buffer"
  | badChecksum => "Invalid checksum"
  | corruptStream => "corrupt deflate stream"
  | incompleteStream => "incomplete deflate stream"

end ZipFault

/-- What a pool index was expected to name. -/
inductive Expected where
  | usable
  | utf8
  | string
  | classInfo
  | nameAndType
  | memberRef
  deriving Repr, DecidableEq

namespace Expected

def name : Expected → String
  | usable => "usable"
  | utf8 => "Utf8"
  | string => "String"
  | classInfo => "Class"
  | nameAndType => "NameAndType"
  | memberRef => "member reference"

end Expected

/-- What is wrong at some offset of a class file, a code buffer or a descriptor. -/
inductive Defect where
  | truncated (part : String) (needed available : Nat)
  | badMagic (magic : UInt32)
  | unknownTag (tag : UInt8)
  | wideOverrun
  | trailingBytes (count : Nat)
  | shortCode (opcode : UInt8) (needed available : Nat)
  | wideTarget (opcode : UInt8)
  | switchBounds (high low : Int32)
  | negativePairs (pairs : Int32)
  | trailingInField (descriptor : String)
  | noParameterList (descriptor : String)
  | badReturnType (descriptor : String)
  | unterminatedClass
  | emptyClassName
  | unexpectedChar (c : Char)
  | endsBeforeType
  deriving Repr, DecidableEq

namespace Defect

def message : Defect → String
  | truncated part needed available =>
    s!"truncated {part} (need {needed} bytes, have {available})"
  | badMagic magic => "bad magic 0x" ++ hex 8 magic.toNat
  | unknownTag tag => s!"unknown constant pool tag {tag.toNat}"
  | wideOverrun => "wide constant overruns constant_pool_count"
  | trailingBytes count => s!"{count} trailing bytes after class attributes"
  | shortCode opcode needed available =>
    "opcode 0x" ++ hex 2 opcode.toNat ++ s!" needs {needed} bytes of code, buffer has {available}"
  | wideTarget opcode => "wide cannot modify opcode 0x" ++ hex 2 opcode.toNat
  | switchBounds high low => s!"tableswitch high {high.toInt} below low {low.toInt}"
  | negativePairs pairs => s!"lookupswitch has negative npairs {pairs.toInt}"
  | trailingInField descriptor =>
    "trailing characters in field descriptor " ++ quote descriptor
  | noParameterList descriptor =>
    "method descriptor " ++ quote descriptor ++ " does not start with '('"
  | badReturnType descriptor => "bad return type in method descriptor " ++ quote descriptor
  | unterminatedClass => "unterminated class type"
  | emptyClassName => "empty class name"
  | unexpectedChar c => "unexpected " ++ quoteChar c ++ " in descriptor"
  | endsBeforeType => "descriptor ends before a type"

end Defect

inductive Fault where
  | fileRead (path : String) (cause : FileFault)
  | fileWrite (path : String) (cause : FileFault)
  | malformed (offset : Nat) (defect : Defect)
  | unknownOpcode (opcode : UInt8) (offset : Nat)
  | badReference (index : UInt16) (expected : Expected)
  /-- An encoded text of `length` bytes, more than a constant holds. -/
  | textTooLong (length : Nat)
  | entryMissing (name : String)
  | container (cause : ZipFault)
  deriving Repr, DecidableEq

namespace Fault

def message : Fault → String
  | fileRead path cause => s!"failed to read file '{path}': " ++ cause.message
  | fileWrite path cause => s!"failed to write file '{path}': " ++ cause.message
  | malformed offset defect => s!"malformed class data at offset {offset}: " ++ defect.message
  | unknownOpcode opcode offset =>
    "unknown opcode 0x" ++ hex 2 opcode.toNat ++ s!" at bytecode offset {offset}"
  | badReference index expected =>
    s!"constant pool index {index.toNat} is not a valid " ++ expected.name ++ " entry"
  | textTooLong length =>
    s!"encoded string is {length} bytes, a constant pool entry holds at most 65535"
  | entryMissing name => s!"archive entry '{name}' not found"
  | container cause => "archive error: " ++ cause.message

/-- The messages of a fault and of its causes, outermost first. -/
def chain (fault : Fault) : List String :=
  fault.message ::
    match fault with
    | fileRead _ cause | fileWrite _ cause => [cause.message]
    | container cause => if cause.isStream then [cause.message, cause.message] else [cause.message]
    | _ => []

end Fault

end JarText
