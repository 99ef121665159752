/-!
# Tables of ranges

A property of characters is a table of ranges of numbers, in increasing order. A number is looked up
by halving the part of the table that can still hold it.
-/

set_option autoImplicit false

namespace JarText.Text

variable {α : Type}

/-- Looks among the items from `low` up to `high` for one whose range holds `n`. `fuel` bounds how
often their number is halved. -/
def findFrom (range : α → Nat × Nat) (table : Array α) (n : Nat) :
    (fuel low high : Nat) → Option α
  | 0, _, _ => none
  | fuel + 1, low, high =>
    if high ≤ low then none
    else
      let middle := (low + high) / 2
      match table[middle]? with
      | none => none
      | some item =>
        if n < (range item).1 then findFrom range table n fuel low middle
        else if (range item).2 < n then findFrom range table n fuel (middle + 1) high
        else some item

/-- The item of a table whose range holds `n`. -/
def findByRange? (range : α → Nat × Nat) (table : Array α) (n : Nat) : Option α :=
  findFrom range table n table.size 0 table.size

def inRanges (ranges : Array (Nat × Nat)) (n : Nat) : Bool :=
  (findByRange? id ranges n).isSome

end JarText.Text
