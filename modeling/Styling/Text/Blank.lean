import Styling.Runs

/-!
# Blank characters

The characters with the white-space property of Unicode, together with the four information
separators. Style text itself knows only four of them (see `Styling.Source.CodePoint`); the wider
set decides what is trimmed from quoted source text and what no name of an entity may contain.
-/

namespace Styling.Text

/-- White-space in the wide sense. -/
def isBlank (c : Char) : Bool :=
  let n := c.toNat
  (0x09 ≤ n && n ≤ 0x0D) || (0x1C ≤ n && n ≤ 0x20) || n == 0x85 || n == 0xA0 || n == 0x1680 ||
    (0x2000 ≤ n && n ≤ 0x200A) || n == 0x2028 || n == 0x2029 || n == 0x202F || n == 0x205F ||
    n == 0x3000

def trim (s : String) : String := String.ofList (dropTrailing isBlank (s.toList.dropWhile isBlank))

private def splitBlanks : List Char → List Char × List (List Char)
  | [] => ([], [])
  | c :: cs =>
    let (word, words) := splitBlanks cs
    if isBlank c then ([], word :: words) else (c :: word, words)

/-- The non-empty runs of characters between blanks, in order. -/
def words (s : String) : List String :=
  let (first, others) := splitBlanks s.toList
  ((first :: others).filter (!·.isEmpty)).map String.ofList

end Styling.Text
