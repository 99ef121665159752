import JarText.Bytes

/-!
# Content in pieces

Content is divided into pieces, each of which is a byte or a copy of bytes that stand before it, and
the pieces are gathered in blocks. At each place the longest of the nearest copies is looked for. A
copy is put off for one byte, and given up if a longer one begins there.
-/

set_option autoImplicit false

namespace JarText.Zip

/-- Bytes that stand before a place as well. -/
structure Copy where
  length : Nat
  /-- How far back the first of them stands. -/
  distance : Nat
  deriving Repr, DecidableEq

namespace Copy

def maxLength : Nat := 258

def maxDistance : Nat := 32768

/-- Whether a copy is worth making: a short one from far away is not. -/
def isWorthwhile (copy : Copy) : Bool := copy.length != 3 || copy.distance < 8192

def isLong (copy : Copy) : Bool := 128 ≤ copy.length

end Copy

inductive Piece where
  | literal (byte : UInt8)
  | copy (copy : Copy)
  deriving Repr, DecidableEq

namespace Piece

def length : Piece → Nat
  | literal _ => 1
  | copy bytes => bytes.length

end Piece

/-- Content, and for each place the last place before it where the same three bytes are likely to
stand; zero if there is none. -/
structure History where
  bytes : Array UInt8
  earlier : Array Nat

namespace History

/-- How many kinds of three bytes are told apart. -/
def kindCount : Nat := 32768

def kindOf (a b c : UInt8) : Nat :=
  ((a.toNat * 1024) ^^^ (b.toNat * 32) ^^^ c.toNat) % kindCount

/-- A place as it is remembered: one in 65536 is taken for none. -/
def remembered (place : Nat) : Nat := if place % 65536 = 0 then 0 else place

/-- Looks up the place before each place where three bytes stand. `latest` has the latest place of
each kind. -/
def earlierFrom : Bytes → (place : Nat) → (latest done : Array Nat) → Array Nat
  | a :: b :: c :: rest, place, latest, done =>
    let kind := kindOf a b c
    let before := latest.getD kind 0
    earlierFrom (b :: c :: rest) (place + 1) (latest.setIfInBounds kind (remembered place))
      (done.push before)
  | _, _, _, done => done

def ofBytes (content : Bytes) : History :=
  { bytes := content.toArray
    earlier := earlierFrom content 0 (Array.replicate kindCount 0) #[] }

def byte (history : History) (place : Nat) : UInt8 := history.bytes.getD place 0

/-- How many bytes from two places on are the same, up to a limit. -/
def sameFrom (history : History) : (limit : Nat) → (first second : Nat) → Nat
  | 0, _, _ => 0
  | limit + 1, first, second =>
    if history.byte first = history.byte second then
      history.sameFrom limit (first + 1) (second + 1) + 1
    else 0

def samePair (history : History) (first second : Nat) : Bool :=
  history.byte first == history.byte second && history.byte (first + 1) == history.byte (second + 1)

/-- What bounds the search for a copy at a place. -/
structure Bounds where
  place : Nat
  /-- The most bytes of the copy. -/
  limit : Nat
  /-- How far back it may begin. -/
  reach : Nat

/-- The bounds at a place: no copy goes beyond the end of the content. -/
def boundsAt (history : History) (place : Nat) : Bounds :=
  let limit := min Copy.maxLength (history.bytes.size - place)
  { place, limit, reach := min place (Copy.maxDistance - limit) }

/-- The longest copy from the places before `probe` that are likely to have one, or `best` if none is
longer. A place is looked at more closely only if the copy from it could be longer. Places are looked
at in threes, and `tries` bounds their number; after a closer look the next three follow. -/
def searchFrom (history : History) (bounds : Bounds) (tries probe : Nat) (best : Copy) : Copy :=
  match tries with
  | 0 => best
  | tries + 1 =>
    let probe := history.earlier.getD probe 0
    let distance := bounds.place - probe
    let last := best.length - 1
    if probe = 0 ∨ bounds.reach < distance then best
    else if history.samePair (probe + last) (bounds.place + last) then
      let length := history.sameFrom bounds.limit probe bounds.place
      if length ≤ best.length then history.searchFrom bounds (tries / 3 * 3) probe best
      else if length = bounds.limit then ⟨length, distance⟩
      else history.searchFrom bounds (tries / 3 * 3) probe ⟨length, distance⟩
    else history.searchFrom bounds tries probe best
termination_by tries
decreasing_by all_goals omega

/-- How many places are looked at for a copy longer than `length`. -/
def triesFor (length : Nat) : Nat := if length < 32 then 129 else 33

/-- The copy to make at a place, if one is longer than `length` bytes. None is made whose distance is
what the place leaves over the greatest distance. -/
def copyAt? (history : History) (place length : Nat) : Option Copy :=
  let bounds := history.boundsAt place
  if bounds.limit ≤ length then none
  else
    let found := history.searchFrom bounds (triesFor length) place ⟨length, 0⟩
    if length < found.length && found.isWorthwhile && found.distance != place % Copy.maxDistance then
      some found
    else none

end History

structure Block where
  pieces : List Piece
  /-- The place of its first byte. -/
  start : Nat
  /-- The number of its bytes. -/
  length : Nat
  /-- Whether its bytes are near enough at its end to be written as they are. -/
  isNear : Bool
  deriving Repr, DecidableEq

/-- The division of content as far as a place. -/
structure Division where
  place : Nat := 0
  /-- A copy from the place before that is put off. -/
  saved : Option Copy := none
  /-- How many bytes before the place are within reach. -/
  window : Nat := 0
  /-- The pieces of the block under way, the last first. -/
  pieces : List Piece := []
  /-- Where the block under way begins. -/
  start : Nat := 0
  /-- The number of bytes of its pieces. -/
  length : Nat := 0
  /-- The number of its pieces. -/
  count : Nat := 0
  /-- The number of its copies. -/
  copies : Nat := 0
  /-- The blocks before it, the last first. -/
  blocks : List Block := []

namespace Division

/-- The pieces that are settled at a place, the copy that is put off, and how many bytes are passed. -/
def step (history : History) (place : Nat) (saved : Option Copy) :
    List Piece × Option Copy × Nat :=
  match saved, history.copyAt? place ((saved.map (·.length)).getD 2) with
  | none, none => ([.literal (history.byte place)], none, 1)
  | some saved, none => ([.copy saved], none, saved.length - 1)
  | saved, some found =>
    let before := if saved.isSome then [Piece.literal (history.byte (place - 1))] else []
    if found.isLong then (before ++ [.copy found], none, found.length)
    else (before, some found, 1)

def push (division : Division) (piece : Piece) : Division :=
  { division with
    pieces := piece :: division.pieces
    length := division.length + piece.length
    count := division.count + 1
    copies :=
      match piece with
      | .literal _ => division.copies
      | .copy _ => division.copies + 1 }

/-- The space that the pieces of the block under way take: one for each, two more for a copy, and one
for every eight. -/
def space (division : Division) : Nat :=
  1 + division.count + 2 * division.copies + division.count / 8

/-- Whether the block under way is to end: it has no space left, or its pieces take almost as much
as its bytes. -/
def isFull (division : Division) : Bool :=
  65528 < division.space
    || (31744 < division.length && division.length ≤ division.space * 115 / 128)

def close (division : Division) : Division :=
  { division with
    pieces := [], start := division.start + division.length, length := 0, count := 0, copies := 0
    blocks :=
      { pieces := division.pieces.reverse, start := division.start, length := division.length
        isNear := division.place - division.start ≤ division.window } :: division.blocks }

/-- Settles the pieces at the place that the division has reached. -/
def advance (history : History) (division : Division) : Division :=
  let reach := (history.boundsAt division.place).reach
  let (pieces, saved, passed) := step history division.place division.saved
  let division := pieces.foldl push division
  let division :=
    { division with
      place := division.place + passed, saved
      window := min (reach + passed) Copy.maxDistance }
  if division.isFull then division.close else division

/-- Goes on to the end of the content. Each step passes a byte at least, so there are no more than
`fuel`, the number of bytes. -/
def finish (history : History) : (fuel : Nat) → Division → Division
  | 0, division => division
  | fuel + 1, division =>
    if division.place < history.bytes.size then finish history fuel (division.advance history)
    else division

end Division

/-- The blocks of content, of which there is one at least. -/
def Block.ofContent (content : Bytes) : List Block :=
  let history := History.ofBytes content
  (Division.finish history content.length {}).close.blocks.reverse

end JarText.Zip
