import JarText.Zip.CodeLengths
import JarText.Zip.Inflate
import JarText.Zip.Piece

/-!
# The codes of a block

A row of pieces is written in the words of two prefix codes. A code is stated by the lengths of its
words, and these are written in a code of their own, in which a run of the same length is one symbol.
-/

set_option autoImplicit false

namespace JarText.Zip

/-! ## Lengths and words -/

structure BlockLengths where
  literal : List Nat
  distance : List Nat
  deriving Repr, DecidableEq

structure BlockWords where
  literal : Array Word
  distance : Array Word

/-- The symbol whose range holds a number: the last that does not begin beyond it. -/
def rangeSymbol (ranges : Array (Nat × Nat)) (n : Nat) : Nat :=
  (ranges.filter (·.1 ≤ n)).size - 1

def endSymbol : Nat := 256

/-- The symbol of the shortest copies; those of longer ones follow it. -/
def firstLengthSymbol : Nat := endSymbol + 1

def lengthSymbol (length : Nat) : Nat := firstLengthSymbol + rangeSymbol lengthRanges length

def distanceSymbol (distance : Nat) : Nat := rangeSymbol distanceRanges distance

namespace BlockLengths

def fixed : BlockLengths := ⟨BlockCodes.fixedLiteralLengths, List.replicate 32 5⟩

/-- Counts the symbols of a row of pieces. -/
def countPieces : List Piece → (literal distance : Array Nat) → Array Nat × Array Nat
  | [], literal, distance => (literal, distance)
  | .literal byte :: rest, literal, distance =>
    countPieces rest (literal.modify byte.toNat (· + 1)) distance
  | .copy copy :: rest, literal, distance =>
    countPieces rest (literal.modify (lengthSymbol copy.length) (· + 1))
      (distance.modify (distanceSymbol copy.distance) (· + 1))

def maxLength : Nat := 15

/-- The lengths made for a row of pieces and the end of the block. -/
def ofPieces (pieces : List Piece) : BlockLengths :=
  let literal := (Array.replicate 286 0).modify endSymbol (· + 1)
  let (literal, distance) := countPieces pieces literal (Array.replicate 30 0)
  ⟨CodeLengths.ofCounts maxLength literal.toList, CodeLengths.ofCounts maxLength distance.toList⟩

/-- Without the zeros at the end, but with so many lengths at least. -/
def trimmed (least : Nat) (lengths : List Nat) : List Nat :=
  lengths.take least ++ ((lengths.drop least).reverse.dropWhile (· = 0)).reverse

def words? (lengths : BlockLengths) : Option BlockWords := do
  let literal ← PrefixCode.ofLengths? lengths.literal
  let distance ← PrefixCode.ofLengths? lengths.distance
  return ⟨literal.words lengths.literal.length, distance.words lengths.distance.length⟩

/-- The words of the codes that every reader knows. -/
def fixedWords? : Option BlockWords := fixed.words?

end BlockLengths

/-! ## Stating the lengths -/

/-- A symbol of the code for code lengths, and the number that follows it. -/
structure LengthItem where
  symbol : Nat
  width : Nat := 0
  extra : Nat := 0
  deriving Repr, DecidableEq

namespace LengthItem

def zeros (count : Nat) : List LengthItem :=
  let rest := count % 138
  List.replicate (count / 138) { symbol := 18, width := 7, extra := 127 }
    ++ if rest < 3 then List.replicate rest { symbol := 0 }
      else if rest ≤ 10 then [{ symbol := 17, width := 3, extra := rest - 3 }]
      else [{ symbol := 18, width := 7, extra := rest - 11 }]

/-- A length once more, so many times. -/
def again (length count : Nat) : List LengthItem :=
  let rest := count % 6
  List.replicate (count / 6) { symbol := 16, width := 2, extra := 3 }
    ++ if rest < 3 then List.replicate rest { symbol := length }
      else [{ symbol := 16, width := 2, extra := rest - 3 }]

def ofRun : List Nat → List LengthItem
  | [] => []
  | 0 :: rest => zeros (rest.length + 1)
  | length :: rest => { symbol := length } :: again length rest.length

def ofLengths (lengths : List Nat) : List LengthItem :=
  (lengths.splitBy (· == ·)).flatMap ofRun

def maxLength : Nat := 7

def codeLengths (items : List LengthItem) : List Nat :=
  let counts := items.foldl (fun counts item => counts.modify item.symbol (· + 1))
    (Array.replicate 19 0)
  CodeLengths.ofCounts maxLength counts.toList

end LengthItem

/-! ## Writing -/

namespace BitSink

def putSymbol (sink : BitSink) (words : Array Word) (symbol : Nat) : BitSink :=
  sink.put (words.getD symbol .nothing)

/-- Puts the place of a number in the range that holds it. -/
def putOffset (sink : BitSink) (ranges : Array (Nat × Nat)) (n : Nat) : BitSink :=
  match ranges[rangeSymbol ranges n]? with
  | none => sink
  | some (base, extra) => if extra = 0 then sink else sink.putBits extra (n - base)

def putPiece (words : BlockWords) (sink : BitSink) : Piece → BitSink
  | .literal byte => sink.putSymbol words.literal byte.toNat
  | .copy copy =>
    let sink := sink.putSymbol words.literal (lengthSymbol copy.length)
    let sink := sink.putOffset lengthRanges copy.length
    let sink := sink.putSymbol words.distance (distanceSymbol copy.distance)
    sink.putOffset distanceRanges copy.distance

def putPieces (words : BlockWords) (pieces : List Piece) (sink : BitSink) : BitSink :=
  (pieces.foldl (putPiece words) sink).putSymbol words.literal endSymbol

def putItem (words : Array Word) (sink : BitSink) (item : LengthItem) : BitSink :=
  let sink := sink.putSymbol words item.symbol
  if item.width = 0 then sink else sink.putBits item.width item.extra

/-- States the lengths of a block's codes. -/
def putLengths (sink : BitSink) (lengths : BlockLengths) : BitSink :=
  let literal := BlockLengths.trimmed firstLengthSymbol lengths.literal
  let distance := BlockLengths.trimmed 1 lengths.distance
  let items := LengthItem.ofLengths (literal ++ distance)
  let codeLengths := LengthItem.codeLengths items
  let stated := BlockLengths.trimmed 4
    (BlockCodes.lengthOrder.map fun symbol => codeLengths[symbol]?.getD 0)
  let sink := sink.putBits 5 (literal.length - firstLengthSymbol)
  let sink := sink.putBits 5 (distance.length - 1)
  let sink := sink.putBits 4 (stated.length - 4)
  let sink := stated.foldl (fun sink length => sink.putBits 3 length) sink
  match PrefixCode.ofLengths? codeLengths with
  | none => sink
  | some code => items.foldl (putItem (code.words 19)) sink

end BitSink

end JarText.Zip
