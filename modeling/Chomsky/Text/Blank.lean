/-!
# Blanks, controls and words

The characters with the Unicode property `White_Space` are blanks. A word is a
longest run of characters without a blank.
-/

namespace Chomsky.Text

/-- Tests for a character with the property `White_Space`. -/
def isBlank (c : Char) : Bool :=
  let n := c.toNat
  (9 ≤ n && n ≤ 13) || n == 0x20 || n == 0x85 || n == 0xa0 || n == 0x1680
    || (0x2000 ≤ n && n ≤ 0x200a) || n == 0x2028 || n == 0x2029 || n == 0x202f
    || n == 0x205f || n == 0x3000

/-- Tests for a control character. -/
def isControl (c : Char) : Bool :=
  let n := c.toNat
  n ≤ 0x1f || (0x7f ≤ n && n ≤ 0x9f)

/-- Puts a character in front of the first word. -/
def consFirst (c : Char) : List (List Char) → List (List Char)
  | [] => [[c]]
  | word :: rest => (c :: word) :: rest

/-- The pieces between blanks, of which there is one more than there are blanks. -/
def pieces : List Char → List (List Char)
  | [] => [[]]
  | c :: rest => if isBlank c then [] :: pieces rest else consFirst c (pieces rest)

/-- The words of a text from left to right. -/
def words (text : String) : List String :=
  ((pieces text.toList).filter fun word => !word.isEmpty).map String.ofList

end Chomsky.Text
