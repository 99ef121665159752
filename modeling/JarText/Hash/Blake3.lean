import JarText.Bytes

/-!
# The fingerprint of a file

BLAKE3 hashes chunks of 1024 bytes, each block by block, and joins neighbouring chunks in a tree
whose left parts are as large as a power of two allows. Only the root is marked as such, so a node is
kept as what is left to compress until its place is known.
-/

set_option autoImplicit false

namespace JarText.Blake3

abbrev Chain := Vector UInt32 8

abbrev Block := Vector UInt32 16

def initialChain : Chain :=
  #v[0x6A09E667, 0xBB67AE85, 0x3C6EF372, 0xA54FF53A, 0x510E527F, 0x9B05688C, 0x1F83D9AB,
    0x5BE0CD19]

/-- From where each word of the next round's block comes. -/
def permutation : Vector (Fin 16) 16 :=
  #v[2, 6, 3, 10, 7, 0, 4, 13, 1, 11, 12, 5, 9, 14, 15, 8]

def permute (block : Block) : Block := permutation.map (block[·])

def rotateRight (word count : UInt32) : UInt32 :=
  (word >>> count) ||| (word <<< (32 - count))

def mix (state : Block) (a b c d : Fin 16) (x y : UInt32) : Block :=
  let va := state[a] + state[b] + x
  let vd := rotateRight (state[d] ^^^ va) 16
  let vc := state[c] + vd
  let vb := rotateRight (state[b] ^^^ vc) 12
  let va := va + vb + y
  let vd := rotateRight (vd ^^^ va) 8
  let vc := vc + vd
  let vb := rotateRight (vb ^^^ vc) 7
  (((state.set a va).set b vb).set c vc).set d vd

def round (block state : Block) : Block :=
  let state := mix state 0 4 8 12 block[0] block[1]
  let state := mix state 1 5 9 13 block[2] block[3]
  let state := mix state 2 6 10 14 block[4] block[5]
  let state := mix state 3 7 11 15 block[6] block[7]
  let state := mix state 0 5 10 15 block[8] block[9]
  let state := mix state 1 6 11 12 block[10] block[11]
  let state := mix state 2 7 8 13 block[12] block[13]
  mix state 3 4 9 14 block[14] block[15]

/-- So many rounds, each with the block permuted once more. -/
def rounds : (count : Nat) → (block state : Block) → Block
  | 0, _, state => state
  | count + 1, block, state => rounds count (permute block) (round block state)

/-- What is left to compress: a block on top of a chain. -/
structure Node where
  chain : Chain
  block : Block
  /-- The number of the chunk. -/
  counter : UInt64
  /-- The bytes of the block that are used. -/
  length : UInt32
  flags : UInt32

namespace Node

def chunkStart : UInt32 := 1

def chunkEnd : UInt32 := 2

def parentFlag : UInt32 := 4

def rootFlag : UInt32 := 8

def compress (node : Node) (flags : UInt32) : Chain :=
  let start : Block := node.chain ++ (#v[initialChain[0], initialChain[1], initialChain[2],
    initialChain[3], node.counter.toUInt32, (node.counter >>> 32).toUInt32, node.length, flags])
  let final := rounds 7 node.block start
  Vector.ofFn fun i : Fin 8 => final[i.val] ^^^ final[i.val + 8]

def toChain (node : Node) : Chain := node.compress node.flags

def parent (left right : Node) : Node :=
  { chain := initialChain, block := left.toChain ++ right.toChain, counter := 0, length := 64
    flags := parentFlag }

def digest (node : Node) : Bytes :=
  (node.compress (node.flags ||| rootFlag)).toList.flatMap fun word =>
    Bytes.littleEndian 4 word.toNat

end Node

def blockLength : Nat := 64

def chunkLength : Nat := 1024

def blockOfBytes (bytes : Bytes) : Block :=
  let padded := (bytes ++ List.replicate (blockLength - bytes.length) 0).toArray
  Vector.ofFn fun i : Fin 16 =>
    let byte (j : Nat) : UInt32 := (padded.getD (4 * i.val + j) 0).toUInt32
    byte 0 ||| (byte 1 <<< 8) ||| (byte 2 <<< 16) ||| (byte 3 <<< 24)

/-- Takes the bytes of a chunk block by block, up to the last, on top of a chain. -/
def chunkFrom (counter : UInt64) (chain : Chain) (flags : UInt32) (bytes : Bytes) : Node :=
  if bytes.length ≤ blockLength then
    { chain, block := blockOfBytes bytes, counter, length := UInt32.ofNat bytes.length
      flags := flags ||| Node.chunkEnd }
  else
    let node : Node :=
      { chain, block := blockOfBytes (bytes.take blockLength), counter, length := 64, flags }
    chunkFrom counter node.toChain 0 (bytes.drop blockLength)
termination_by bytes.length
decreasing_by
  simp only [List.length_drop, blockLength] at *
  omega

def chunk (counter : UInt64) (bytes : Bytes) : Node :=
  chunkFrom counter initialChain Node.chunkStart bytes

/-- The chunks of a byte string, of which there is one at least. -/
def chunksFrom (counter : UInt64) (bytes : Bytes) : List Node :=
  let rest := bytes.drop chunkLength
  if h : rest = [] then [chunk counter bytes]
  else chunk counter (bytes.take chunkLength) :: chunksFrom (counter + 1) rest
termination_by bytes.length
decreasing_by
  have := List.length_pos_iff.2 h
  simp only [rest, List.length_drop, chunkLength] at *
  omega

/-- How many of `count` leaves stand left of the root: the greatest power of two below. -/
def leftCount (count : Nat) : Nat := Nat.pow 2 (count - 1).log2

theorem leftCount_lt (count : Nat) (h : 2 ≤ count) : leftCount count < count :=
  Nat.lt_of_le_of_lt (Nat.log2_self_le (by omega)) (by omega)

def root (first : Node) (others : List Node) : Node :=
  match others with
  | [] => first
  | second :: rest =>
    let left := leftCount (rest.length + 2)
    match h : (second :: rest).drop (left - 1) with
    | [] => first
    | middle :: right => .parent (root first ((second :: rest).take (left - 1))) (root middle right)
termination_by others.length
decreasing_by
  · have := leftCount_lt (rest.length + 2) (by omega)
    simp only [List.length_take, List.length_cons]
    omega
  · have hl := congrArg List.length h
    simp only [List.length_drop, List.length_cons] at hl
    simp only [List.length_cons]
    omega

def hash (bytes : Bytes) : Bytes :=
  match chunksFrom 0 bytes with
  | [] => []
  | first :: others => (root first others).digest

end JarText.Blake3
