import Chomsky.Text.Quoted

/-!
# Tokens of grammar text

Grammar text consists of names, arrows, bars, semicolons and line breaks, with
blanks and comments between them. A lexeme is a token with the piece of text it
stands for and the position at which the piece starts.
-/

namespace Chomsky.Bnf

/-- What a piece of grammar text stands for. -/
inductive Token where
  /-- The name of a symbol, or `ε`. -/
  | ident (name : String)
  /-- One of `::=`, `->` and `→`. -/
  | arrow
  | semicolon
  | bar
  | newline
  /-- A blank character other than a line break. -/
  | blank
  /-- From `#` to the end of the line. -/
  | comment
  /-- A control character, which has no place in grammar text. -/
  | control (c : Char)
  | endOfText
deriving DecidableEq

namespace Token

/-- The token as it is shown in messages. -/
def text : Token → String
  | ident name => "Ident(" ++ Text.quote name ++ ")"
  | arrow => "BnfOp"
  | semicolon => "Semicolon"
  | bar => "Pipe"
  | newline => "Newline"
  | blank => "Whitespace"
  | comment => "Comment"
  | control c => "Error(" ++ Text.quoteSingle c ++ ")"
  | endOfText => "Eof"

end Token

/-- A place in a text. Lines and columns count from one, and columns count characters. Both are
counted in 32 bits, so a count that becomes too large starts again from zero. -/
@[ext]
structure Position where
  line : UInt32 := 1
  column : UInt32 := 1
deriving DecidableEq

namespace Position

/-- The position after one character. -/
def next (p : Position) (c : Char) : Position :=
  if c = '\n' then ⟨p.line + 1, 1⟩ else ⟨p.line, p.column + 1⟩

/-- The position after a piece of text. -/
def after (p : Position) (piece : List Char) : Position := piece.foldl next p

end Position

/-- A token with its piece of text and the position of its first character. -/
structure Lexeme where
  token : Token
  piece : List Char
  position : Position
deriving DecidableEq

end Chomsky.Bnf
