import JarText.Scan.ClassScan
import JarText.Text.Blank
import JarText.Text.Case

/-!
# Filtering texts

A query is a row of words. A text passes when every word occurs in it, whatever the case of the
letters, and when it is not blank, if blank texts are hidden.
-/

set_option autoImplicit false

namespace JarText.Filter

def small (text : List Char) : String := String.ofList (Text.lower text)

/-- Whether a value passes for words that are already in small letters. -/
def accepts (hideBlank : Bool) (words : List String) (value : String) : Bool :=
  if hideBlank && value.toList.all Text.isBlank then false
  else
    let value := small value.toList
    words.all fun word => value.contains word

/-- A word occurs in a text where its characters stand there in a row. -/
theorem contains_small_iff (text : List Char) (word : String) :
    (small text).contains word = true ↔ word.toList <:+: Text.lower text := by
  simp [small, String.contains_string_iff]

/-- The words of a query, in small letters. -/
def queryWords (query : String) : List String :=
  (Text.words query.toList).map small

def strings (hideBlank : Bool) (query : String) (found : List FoundString) : List FoundString :=
  let words := queryWords query
  found.filter fun string => accepts hideBlank words string.value

end JarText.Filter
