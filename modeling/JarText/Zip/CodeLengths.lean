/-!
# Lengths of code words

The lengths of the words of a prefix code are chosen from how often each symbol occurs. The two
lightest trees are joined until one is left; a symbol's depth in it is the length of its word. Where
that is more than a limit allows, words are moved up to the limit, and others a level down to make
room for them. Of the lengths that result the rarer symbols have the longer.
-/

set_option autoImplicit false

namespace JarText.Zip

/-- A tree over symbols that are not told apart. -/
inductive Shape where
  | leaf
  | node (left right : Shape)
  deriving Repr, DecidableEq

namespace Shape

def depths : Shape → (depth : Nat) → List Nat
  | leaf, depth => [depth]
  | node left right, depth => left.depths (depth + 1) ++ right.depths (depth + 1)

/-- The lightest of some weights and of some trees, both lightest first, and what is left. A weight
stands for a leaf, and goes before a tree that is no lighter. -/
def lightest? : (leaves : List Nat) → (trees : List (Nat × Shape)) →
    Option ((Nat × Shape) × List Nat × List (Nat × Shape))
  | [], [] => none
  | [], tree :: trees => some (tree, [], trees)
  | weight :: leaves, [] => some ((weight, leaf), leaves, [])
  | weight :: leaves, tree :: trees =>
    if tree.1 < weight then some (tree, weight :: leaves, trees)
    else some ((weight, leaf), leaves, tree :: trees)

/-- Joins the two lightest until one tree is left. `fuel` bounds how often. -/
def join : (fuel : Nat) → (leaves : List Nat) → (trees : List (Nat × Shape)) → Option Shape
  | 0, _, _ => none
  | fuel + 1, leaves, trees =>
    match lightest? leaves trees with
    | none => none
    | some (first, leaves, trees) =>
      match lightest? leaves trees with
      | none => some first.2
      | some (second, leaves, trees) =>
        join fuel leaves (trees ++ [(first.1 + second.1, node first.2 second.2)])

def ofWeights? (weights : List Nat) : Option Shape := join (weights.length + 1) weights []

end Shape

namespace CodeLengths

/-- How many of some depths are each depth up to a limit. Those beyond it count at the limit. -/
def tally (limit : Nat) (depths : List Nat) : Array Nat :=
  depths.foldl (fun tally depth => tally.modify (min depth limit) (· + 1))
    (Array.replicate (limit + 1) 0)

/-- The room that words take, where a word of the limit's length takes one. -/
def room (limit : Nat) (tally : Array Nat) : Nat :=
  (List.range limit).foldl
    (fun room depth => room + tally.getD (depth + 1) 0 * Nat.pow 2 (limit - (depth + 1))) 0

/-- The greatest length up to `length` that some word has. -/
def lastUsed (tally : Array Nat) : (length : Nat) → Nat
  | 0 => 0
  | length + 1 => if tally.getD (length + 1) 0 = 0 then lastUsed tally length else length + 1

/-- Takes back one unit of room, `excess` times: a word moves a level down, and one of the longest
moves up beside it. -/
def shorten (limit : Nat) : (excess : Nat) → (tally : Array Nat) → Array Nat
  | 0, tally => tally
  | excess + 1, tally =>
    let length := lastUsed tally (limit - 1)
    let tally := tally.modify limit (· - 1)
    if length = 0 then shorten limit excess tally
    else shorten limit excess ((tally.modify length (· - 1)).modify (length + 1) (· + 2))

def ofTally (limit : Nat) (tally : Array Nat) : List Nat :=
  (List.range limit).flatMap fun depth =>
    List.replicate (tally.getD (depth + 1) 0) (depth + 1)

/-- The lengths for weights, of which none is zero, lightest first. -/
def ofWeights (limit : Nat) (weights : List Nat) : List Nat :=
  match Shape.ofWeights? weights with
  | none => []
  | some .leaf => [1]
  | some shape =>
    let tally := tally limit (shape.depths 0)
    (ofTally limit (shorten limit (room limit tally - Nat.pow 2 limit) tally)).reverse

/-- The length of the word of each symbol, from how often it occurs: zero if it does not. No length
is more than `limit`. -/
def ofCounts (limit : Nat) (counts : List Nat) : List Nat :=
  let used := counts.zipIdx.filter (0 < ·.1)
  let sorted := used.mergeSort fun a b => a.1 < b.1 || (a.1 == b.1 && a.2 ≤ b.2)
  let lengths := (sorted.map (·.2)).zip (ofWeights limit (sorted.map (·.1)))
  (lengths.foldl (fun lengths item => lengths.setIfInBounds item.1 item.2)
    (Array.replicate counts.length 0)).toList

end CodeLengths

end JarText.Zip
