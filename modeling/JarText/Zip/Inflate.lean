import JarText.Zip.PrefixCode

/-!
# Compressed content

Compressed content is a row of blocks, the last of which is marked. A block holds bytes as they
are, or symbols of two prefix codes: the first code has the bytes, the end of the block and lengths
of repeated pieces, the second how far back a repeated piece begins. What lies before the beginning
counts as zeros.
-/

set_option autoImplicit false

namespace JarText.Zip

/-- The number in the next bits of a stream. -/
def takeBits (width : Nat) (source : BitSource) : Except ZipFault (Nat × BitSource) :=
  match source.takeBits? width with
  | some result => .ok result
  | none => .error .incompleteStream

structure BlockCodes where
  literal : PrefixCode
  distance : PrefixCode
  deriving Repr, DecidableEq

namespace BlockCodes

def fixedLiteralLengths : List Nat :=
  List.replicate 144 8 ++ List.replicate 112 9 ++ List.replicate 24 7 ++ List.replicate 8 8

/-- The codes of a block that states none of its own. -/
def fixed? : Option BlockCodes := do
  let literal ← PrefixCode.ofLengths? fixedLiteralLengths
  let distance ← PrefixCode.ofLengths? (List.replicate 32 5)
  return { literal, distance }

/-- The order in which the lengths of the code for code lengths are stated. -/
def lengthOrder : List Nat :=
  [16, 17, 18, 0, 8, 7, 9, 6, 10, 5, 11, 4, 12, 3, 13, 2, 14, 1, 15]

def takeLengths : (count : Nat) → (done : List Nat) → BitSource →
    Except ZipFault (List Nat × BitSource)
  | 0, done, source => .ok (done.reverse, source)
  | count + 1, done, source => do
    let (length, source) ← takeBits 3 source
    takeLengths count (length :: done) source

def inSymbolOrder (lengths : List Nat) : List Nat :=
  let stated := lengthOrder.zip lengths
  (List.range 19).map fun symbol => (stated.lookup symbol).getD 0

/-- What a symbol of the code for code lengths adds: the length, how many times, and what follows. -/
def repeated (symbol : Nat) (done : List Nat) (source : BitSource) :
    Except ZipFault (Nat × Nat × BitSource) :=
  match symbol with
  | 16 =>
    match done with
    | [] => .error .corruptStream
    | last :: _ => do
      let (times, source) ← takeBits 2 source
      return (last, times + 3, source)
  | 17 => do
    let (times, source) ← takeBits 3 source
    return (0, times + 3, source)
  | 18 => do
    let (times, source) ← takeBits 7 source
    return (0, times + 11, source)
  | length => .ok (length, 1, source)

/-- Reads code lengths until there are `total`. `fuel` bounds the symbols read. -/
def codeLengths (code : PrefixCode) (total : Nat) : (fuel : Nat) → (done : List Nat) →
    BitSource → Except ZipFault (List Nat × BitSource)
  | 0, done, source => .ok (done.reverse, source)
  | fuel + 1, done, source =>
    if done.length = total then .ok (done.reverse, source)
    else do
      let (symbol, source) ← code.read source
      let (length, times, source) ← repeated symbol done source
      let done := List.replicate times length ++ done
      if total < done.length then .error .corruptStream
      else codeLengths code total fuel done source

/-- The code for the lengths of one of the two codes. It may leave words unused only if it has no
word, or a single one of one bit. -/
def ofLengths (lengths : List Nat) : Except ZipFault PrefixCode :=
  match PrefixCode.ofLengths? lengths with
  | none => .error .corruptStream
  | some code =>
    let stated := lengths.filter (· ≠ 0)
    if code.isComplete || stated = [] || stated = [1] then .ok code else .error .corruptStream

def read (source : BitSource) : Except ZipFault (BlockCodes × BitSource) := do
  let (literals, source) ← takeBits 5 source
  let (distances, source) ← takeBits 5 source
  let (stated, source) ← takeBits 4 source
  let literals := literals + 257
  let distances := distances + 1
  if 286 < literals || 30 < distances then throw .corruptStream
  let (lengths, source) ← takeLengths (stated + 4) [] source
  let code ← match PrefixCode.ofLengths? (inSymbolOrder lengths) with
    | some code => if code.isComplete then pure code else throw .corruptStream
    | none => throw .corruptStream
  let total := literals + distances
  let (lengths, source) ← codeLengths code total total [] source
  let literal ← ofLengths (lengths.take literals)
  let distance ← ofLengths (lengths.drop literals)
  return ({ literal, distance }, source)

end BlockCodes

/-- The base and the extra bits of each length symbol, from 257 on. -/
def lengthRanges : Array (Nat × Nat) :=
  #[(3, 0), (4, 0), (5, 0), (6, 0), (7, 0), (8, 0), (9, 0), (10, 0), (11, 1), (13, 1), (15, 1),
    (17, 1), (19, 2), (23, 2), (27, 2), (31, 2), (35, 3), (43, 3), (51, 3), (59, 3), (67, 4),
    (83, 4), (99, 4), (115, 4), (131, 5), (163, 5), (195, 5), (227, 5), (258, 0)]

def distanceRanges : Array (Nat × Nat) :=
  #[(1, 0), (2, 0), (3, 0), (4, 0), (5, 1), (7, 1), (9, 2), (13, 2), (17, 3), (25, 3), (33, 4),
    (49, 4), (65, 5), (97, 5), (129, 6), (193, 6), (257, 7), (385, 7), (513, 8), (769, 8),
    (1025, 9), (1537, 9), (2049, 10), (3073, 10), (4097, 11), (6145, 11), (8193, 12), (12289, 12),
    (16385, 13), (24577, 13)]

/-- Reads the number that a symbol stands for. -/
def takeRange (ranges : Array (Nat × Nat)) (symbol : Nat) (source : BitSource) :
    Except ZipFault (Nat × BitSource) :=
  match ranges[symbol]? with
  | none => .error .corruptStream
  | some (base, extra) => do
    let (offset, source) ← takeBits extra source
    return (base + offset, source)

/-- Repeats `length` bytes from `distance` back. -/
def copyBack (distance : Nat) : (length : Nat) → Array UInt8 → Array UInt8
  | 0, out => out
  | length + 1, out =>
    let byte := if distance ≤ out.size then out.getD (out.size - distance) 0 else 0
    copyBack distance length (out.push byte)

-- irreducible, so that opening `readSymbols` does not try a symbol against each number below the first
-- of a length
/-- Reads what a length symbol begins: the length of a copy and how far back it stands. -/
@[irreducible] def readCopy (codes : BlockCodes) (symbol : Nat) (source : BitSource) :
    Except ZipFault ((Nat × Nat) × BitSource) := do
  let (length, source) ← takeRange lengthRanges (symbol - 257) source
  let (symbol, source) ← codes.distance.read source
  let (distance, source) ← takeRange distanceRanges symbol source
  return ((length, distance), source)

/-- Reads the symbols of a block. `fuel` bounds their number. -/
def readSymbols (codes : BlockCodes) : (fuel : Nat) → BitSource → Array UInt8 →
    Except ZipFault (BitSource × Array UInt8)
  | 0, _, _ => .error .incompleteStream
  | fuel + 1, source, out =>
    match codes.literal.read source with
    | .error fault => .error fault
    | .ok (symbol, source) =>
      if symbol < 256 then readSymbols codes fuel source (out.push (UInt8.ofNat symbol))
      else if symbol = 256 then .ok (source, out)
      else
        match readCopy codes symbol source with
        | .error fault => .error fault
        | .ok ((length, distance), source) =>
          readSymbols codes fuel source (copyBack distance length out)

/-- Reads a block of bytes as they are. -/
def readStored (source : BitSource) (out : Array UInt8) :
    Except ZipFault (BitSource × Array UInt8) := do
  let (length, source) ← takeBits 16 source.align
  let (inverse, source) ← takeBits 16 source
  if length + inverse ≠ 65535 then throw .corruptStream
  let chunk := source.rest.take length
  if chunk.length < length then throw .incompleteStream
  return (⟨[], source.rest.drop length⟩, out ++ chunk)

def readBlock (fuel kind : Nat) (source : BitSource) (out : Array UInt8) :
    Except ZipFault (BitSource × Array UInt8) :=
  match kind with
  | 0 => readStored source out
  | 1 =>
    match BlockCodes.fixed? with
    | some codes => readSymbols codes fuel source out
    | none => .error .corruptStream
  | 2 => do
    let (codes, source) ← BlockCodes.read source
    readSymbols codes fuel source out
  | _ => .error .corruptStream

/-- Reads blocks up to the last. `fuel` bounds the blocks and the symbols of each. -/
def readBlocks : (fuel : Nat) → BitSource → Array UInt8 → Except ZipFault (Array UInt8)
  | 0, _, _ => .error .incompleteStream
  | fuel + 1, source, out =>
    match takeBits 3 source with
    | .error fault => .error fault
    | .ok (header, source) =>
      match readBlock (fuel + 1) (header / 2) source out with
      | .error fault => .error fault
      | .ok (source, out) =>
        if header % 2 = 1 then .ok out else readBlocks fuel source out

/-- The content of a compressed stream. Every block and symbol takes a bit at least, unless it is
the end of the stream. -/
def inflate (stream : Bytes) : Except ZipFault Bytes :=
  (readBlocks (8 * stream.length + 1) (.ofBytes stream) #[]).map (·.toList)

end JarText.Zip
