import JarText.Zip.BlockCodes

/-!
# Compressing

The pieces of each block are written in two prefix codes: those that every reader knows, or, if the
block has a fair number of bytes, codes made for the block, whose lengths are stated first. A block
that this does not make smaller is written as the bytes that it stands for.
-/

set_option autoImplicit false

namespace JarText.Zip

/-! ## Blocks -/

/-- The most bytes of a block of bytes as they are. -/
def maxStored : Nat := 65535

/-- Bytes as they are, after their number and its inverse. -/
def stored (chunk : Bytes) : Bytes :=
  Bytes.littleEndian 2 chunk.length ++ Bytes.littleEndian 2 (maxStored - chunk.length) ++ chunk

namespace Block

/-- A block of fewer bytes uses the codes that every reader knows. -/
def leastOwnCodes : Nat := 48

/-- The pieces of a block in the codes that fit it. -/
def putPacked (block : Block) (sink : BitSink) : BitSink :=
  let putWith (words : Option BlockWords) (sink : BitSink) : BitSink :=
    match words with
    | none => sink
    | some words => sink.putPieces words block.pieces
  if block.length < leastOwnCodes then putWith BlockLengths.fixedWords? (sink.putBits 2 1)
  else
    let lengths := BlockLengths.ofPieces block.pieces
    putWith lengths.words? ((sink.putBits 2 2).putLengths lengths)

def putStored (content : Array UInt8) (block : Block) (sink : BitSink) : BitSink :=
  (sink.putBits 2 0).align.putBytes
    (stored (content.extract block.start (block.start + block.length)).toList)

/-- A block of no more bytes is written in pieces whatever space they take. -/
def mostAlwaysPacked : Nat := 32

/-- Puts a block: in pieces, or as its bytes are if the pieces fill almost as many. -/
def put (content : Array UInt8) (last : Bool) (sink : BitSink) (block : Block) : BitSink :=
  let sink := sink.putBits 1 last.toNat
  let start := sink.remainder
  let packed := block.putPacked start
  if block.isNear && mostAlwaysPacked < block.length && block.length ≤ packed.bytes.size + 1 then
    sink.append (block.putStored content start)
  else sink.append packed

end Block

def putBlocks (content : Array UInt8) : List Block → BitSink → BitSink
  | [], sink => sink
  | [block], sink => block.put content true sink
  | block :: rest, sink => putBlocks content rest (block.put content false sink)

/-- Compressed content: the stream of its blocks. -/
def deflate (content : Bytes) : Bytes :=
  (putBlocks content.toArray (Block.ofContent content) .empty).align.bytes.toList

end JarText.Zip
