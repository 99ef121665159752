import JarText.Zip.BitSink
import JarText.Zip.BitSource
import JarText.Fault

/-!
# Prefix codes

A prefix code is given by the length of the code word of each symbol. Words of one length are
consecutive numbers in the order of their symbols, and shorter words come before longer ones. So the
tree of a code is made from its deepest level up: the words that end at a level stand left of the
pairs of trees from the level below.
-/

set_option autoImplicit false

namespace JarText.Zip

/-- The tree of a prefix code; `unused` is where no code word leads. -/
inductive PrefixCode where
  | unused
  | symbol (value : Nat)
  | branch (zero one : PrefixCode)
  deriving Repr, DecidableEq

namespace PrefixCode

/-- The most bits of a code word. -/
def maxLength : Nat := 15

/-- The symbols with code words of one length, in order. `words` has the length and the symbol of
each word. -/
def symbolsOfLength (words : List (Nat × Nat)) (length : Nat) : List PrefixCode :=
  words.filterMap fun word => if word.1 = length then some (symbol word.2) else none

/-- Joins neighbouring trees, the last with nothing if it has no neighbour. -/
def pairs : List PrefixCode → List PrefixCode
  | [] => []
  | [tree] => [branch tree unused]
  | zero :: one :: rest => branch zero one :: pairs rest

/-- The trees whose roots stand `levels` levels above the depth that no word reaches. -/
def forest (words : List (Nat × Nat)) : (levels : Nat) → List PrefixCode
  | 0 => []
  | levels + 1 => symbolsOfLength words (maxLength - levels) ++ pairs (forest words levels)

/-- The code with the given lengths, zero for a symbol that has no word; `none` if there are more
words than fit. In a code without words, too, a bit is read before none is found. -/
def ofLengths? (lengths : List Nat) : Option PrefixCode :=
  match pairs (forest (lengths.zipIdx.filter (·.1 ≠ 0)) maxLength) with
  | [] => some (branch unused unused)
  | [tree] => some tree
  | _ => none

/-- Whether every row of bits begins a code word or continues one. -/
def isComplete : PrefixCode → Bool
  | unused => false
  | symbol _ => true
  | branch zero one => zero.isComplete && one.isComplete

def read : PrefixCode → BitSource → Except ZipFault (Nat × BitSource)
  | unused, _ => .error .corruptStream
  | symbol value, source => .ok (value, source)
  | branch zero one, source =>
    match source.next? with
    | none => .error .incompleteStream
    | some (false, source) => zero.read source
    | some (true, source) => one.read source

/-! ## Writing -/

/-- The symbols below a tree with their words, where `word` leads to the tree. -/
def wordsFrom : PrefixCode → (word : Word) → List (Nat × Word)
  | unused, _ => []
  | symbol value, word => [(value, word)]
  | branch zero one, word =>
    zero.wordsFrom { word with size := 2 * word.size }
      ++ one.wordsFrom ⟨2 * word.size, word.value + word.size⟩

/-- The word of each of the first `count` symbols: its bits are the way to the symbol. -/
def words (count : Nat) (code : PrefixCode) : Array Word :=
  (code.wordsFrom .nothing).foldl (fun words item => words.setIfInBounds item.1 item.2)
    (Array.replicate count .nothing)

end PrefixCode

end JarText.Zip
