/-!
# Blanks and words

The blank characters are those of the Unicode property of white space. A word is a longest run of
other characters.
-/

set_option autoImplicit false

namespace JarText.Text

def isBlank (c : Char) : Bool :=
  let n := c.toNat
  (9 ≤ n && n ≤ 13) || n == 32 || n == 0x85 || n == 0xa0 || n == 0x1680
    || (0x2000 ≤ n && n ≤ 0x200a) || n == 0x2028 || n == 0x2029 || n == 0x202f || n == 0x205f
    || n == 0x3000

def wordsFrom (done : List (List Char)) (word : List Char) : List Char → List (List Char)
  | [] => (if word.isEmpty then done else word.reverse :: done).reverse
  | c :: rest =>
    if isBlank c then wordsFrom (if word.isEmpty then done else word.reverse :: done) [] rest
    else wordsFrom done (c :: word) rest

def words (text : List Char) : List (List Char) :=
  wordsFrom [] [] text

end JarText.Text
