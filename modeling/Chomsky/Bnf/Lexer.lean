import Chomsky.Bnf.Token
import Chomsky.Text.Blank

/-!
# From text to lexemes

At each place an arrow is tried first. A name goes on until a blank, a control
character, a semicolon, a bar, a number sign, or a place where an arrow starts.
Every lexeme takes at least one character, and the pieces together are the text.
The last lexeme marks the end of the text.
-/

namespace Chomsky.Bnf

open Text (isBlank isControl)

/-- The length of the arrow that a text starts with, or zero. -/
def arrowLength : List Char → Nat
  | ':' :: ':' :: '=' :: _ => 3
  | '-' :: '>' :: _ => 2
  | '→' :: _ => 1
  | _ => 0

/-- Tests for a character that ends a name wherever it stands. -/
def endsName (c : Char) : Bool := isBlank c || isControl c || c == ';' || c == '|' || c == '#'

/-- The number of characters by which a name goes on. -/
def nameLength : List Char → Nat
  | [] => 0
  | c :: rest =>
    if endsName c || arrowLength (c :: rest) != 0 then 0 else nameLength rest + 1

/-- The number of characters up to the end of the line. -/
def lineLength (cs : List Char) : Nat := (cs.takeWhile (· != '\n')).length

/-- The token that a text starts with, and how many characters it takes after the first. -/
def firstToken (c : Char) (rest : List Char) : Token × Nat :=
  if arrowLength (c :: rest) != 0 then (.arrow, arrowLength (c :: rest) - 1)
  else if c = ';' then (.semicolon, 0)
  else if c = '|' then (.bar, 0)
  else if c = '\n' then (.newline, 0)
  else if c = '#' then (.comment, lineLength rest)
  else if isBlank c then (.blank, 0)
  else if isControl c then (.control c, 0)
  else
    let more := nameLength rest
    (.ident (String.ofList (c :: rest.take more)), more)

/-- The lexemes of a text that starts at a position. -/
def lexemesFrom (position : Position) : List Char → List Lexeme
  | [] => [⟨.endOfText, [], position⟩]
  | c :: rest =>
    let (token, more) := firstToken c rest
    let piece := c :: rest.take more
    ⟨token, piece, position⟩ :: lexemesFrom (position.after piece) (rest.drop more)
termination_by cs => cs.length
decreasing_by
  simp only [List.length_drop, List.length_cons]
  omega

/-- The lexemes of a text. -/
def lexemes (text : String) : List Lexeme := lexemesFrom {} text.toList

end Chomsky.Bnf
