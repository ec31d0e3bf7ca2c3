import Chomsky.Bnf.Token

/-!
# Signs of grammar text

Rules are written with four kinds of signs: names, arrows, bars and stops. Blanks
and comments are no signs. A line break, a semicolon and the end of the text are
stops, except that a line break next to a bar joins the lines, and that a stop
counts only after some other sign. A sign has the number of its lexeme, by which
the text of a name is found again.
-/

namespace Chomsky.Bnf

/-- A kind of signs that rules are written with. -/
inductive Terminal where
  | name
  | arrow
  | bar
  | stop
deriving DecidableEq

/-- What matters of a lexeme: a sign, or a control character that has no place in the text. -/
inductive Mark where
  | sign (kind : Terminal)
  | control (c : Char)
deriving DecidableEq

/-- A mark with the lexeme it was made from, and the number of lexemes before that one. -/
structure Placed where
  mark : Mark
  lexeme : Lexeme
  place : Nat
deriving DecidableEq

/-- Tests for a token that a line break looks past. -/
def isSpacing : Token → Bool
  | .newline | .blank | .comment => true
  | _ => false

/-- Tests whether the next token on this or a later line is a bar. -/
def continues (rest : List (Lexeme × Nat)) : Bool :=
  match rest.find? fun numbered => !isSpacing numbered.1.token with
  | some numbered => numbered.1.token == .bar
  | none => false

/-- Tests whether a stop would end nothing: no sign came before it, or only a stop. -/
def isIdle (last : Option Terminal) : Bool := last == none || last == some .stop

/-- The mark of a lexeme, given the last sign before it and the lexemes after it. -/
def markOf (last : Option Terminal) (token : Token) (rest : List (Lexeme × Nat)) : Option Mark :=
  match token with
  | .blank | .comment => none
  | .ident _ => some (.sign .name)
  | .arrow => some (.sign .arrow)
  | .bar => some (.sign .bar)
  | .newline =>
    if last == some .bar || continues rest || isIdle last then none else some (.sign .stop)
  | .semicolon | .endOfText => if isIdle last then none else some (.sign .stop)
  | .control c => some (.control c)

/-- The marks of numbered lexemes, given the last sign before them. -/
def marksFrom (last : Option Terminal) : List (Lexeme × Nat) → List Placed
  | [] => []
  | (lexeme, place) :: rest =>
    match markOf last lexeme.token rest with
    | none => marksFrom last rest
    | some (.sign kind) => ⟨.sign kind, lexeme, place⟩ :: marksFrom (some kind) rest
    | some (.control c) => ⟨.control c, lexeme, place⟩ :: marksFrom last rest

/-- The marks of a whole text. -/
def marks (lexemes : List Lexeme) : List Placed := marksFrom none lexemes.zipIdx

end Chomsky.Bnf
