import Chomsky.Bnf.Tree
import Chomsky.Proofs.Lexing

/-!
# The effective signs of a text

Which signs a text has is said here in separate passes over its tokens: blanks and
comments are left out, then the line breaks next to bars, then every remaining
token becomes a sign, and at last the stops that end nothing are left out. A sign
that is a name has its text as its value.
-/

namespace Chomsky.Bnf

/-- A sign that rules are written with. -/
inductive Sign where
  | name (text : String)
  | arrow
  | bar
  | stop
deriving DecidableEq

namespace Sign

/-- The kind of a sign. -/
def kind : Sign → Terminal
  | name _ => .name
  | arrow => .arrow
  | bar => .bar
  | stop => .stop

/-- The value of a sign. Only names have one. -/
def value : Sign → Value
  | name text => .name text
  | _ => .nothing

/-- The kind of a sign with its value. -/
def leaf (sign : Sign) : Terminal × Value := (sign.kind, sign.value)

/-- Signs are told apart by their kinds and values. -/
theorem leaf_injective : Function.Injective leaf := by
  intro sign sign' h
  cases sign <;> cases sign' <;> simp_all [leaf, kind, value]

end Sign

variable {tokens : List Token} {name : String}

/-- Tests for a token other than blanks and comments. -/
def isVisible : Token → Bool
  | .blank | .comment => false
  | _ => true

/-- Tests whether a bar comes after the line breaks at the start. -/
def barFollows (tokens : List Token) : Bool :=
  (tokens.find? (· != .newline)) == some .bar

/-- Leaves out every line break that comes after a bar, with nothing kept in between, or that a bar
follows. -/
def joinLines (afterBar : Bool) : List Token → List Token
  | [] => []
  | .newline :: rest =>
    if afterBar || barFollows rest then joinLines afterBar rest
    else .newline :: joinLines false rest
  | token :: rest => token :: joinLines (token == .bar) rest

/-- The sign that a token stands for. -/
def signOf? : Token → Option Sign
  | .ident name => some (.name name)
  | .arrow => some .arrow
  | .bar => some .bar
  | .newline | .semicolon | .endOfText => some .stop
  | .blank | .comment | .control _ => none

/-- Leaves out every stop that comes first or after a stop. -/
def dropIdle (idle : Bool) : List Sign → List Sign
  | [] => []
  | .stop :: rest => if idle then dropIdle true rest else .stop :: dropIdle true rest
  | sign :: rest => sign :: dropIdle false rest

/-- The signs of tokens, given whether a bar came last before them and whether a stop there would
end nothing. -/
def signsAfter (afterBar idle : Bool) (tokens : List Token) : List Sign :=
  dropIdle idle ((joinLines afterBar (tokens.filter isVisible)).filterMap signOf?)

/-- The signs of a text. -/
def effectiveSigns (text : String) : List Sign := signsAfter false true (tokensOf text.toList)

section Steps

variable (afterBar idle : Bool) (rest : List Token)

/-- Without tokens there are no signs. -/
@[simp]
theorem signsAfter_nil : signsAfter afterBar idle [] = [] := rfl

/-- A blank is no sign. -/
@[simp]
theorem signsAfter_blank :
    signsAfter afterBar idle (.blank :: rest) = signsAfter afterBar idle rest := rfl

/-- A comment is passed over. -/
@[simp]
theorem signsAfter_comment :
    signsAfter afterBar idle (.comment :: rest) = signsAfter afterBar idle rest := rfl

/-- A name is a sign, and a stop after it ends something. -/
@[simp]
theorem signsAfter_ident (name : String) :
    signsAfter afterBar idle (.ident name :: rest) = .name name :: signsAfter false false rest :=
  rfl

/-- An arrow is a sign, and a stop after it ends something. -/
@[simp]
theorem signsAfter_arrow :
    signsAfter afterBar idle (.arrow :: rest) = .arrow :: signsAfter false false rest := rfl

/-- A bar is a sign, and joins the lines after it. -/
@[simp]
theorem signsAfter_bar :
    signsAfter afterBar idle (.bar :: rest) = .bar :: signsAfter true false rest := rfl

/-- A semicolon is a stop unless a stop would be idle. -/
@[simp]
theorem signsAfter_semicolon :
    signsAfter afterBar idle (.semicolon :: rest) =
      if idle then signsAfter false true rest else .stop :: signsAfter false true rest := rfl

/-- The end of the text is a stop unless a stop would be idle. -/
@[simp]
theorem signsAfter_endOfText :
    signsAfter afterBar idle (.endOfText :: rest) =
      if idle then signsAfter false true rest else .stop :: signsAfter false true rest := rfl

/-- A control character is no sign. -/
@[simp]
theorem signsAfter_control (c : Char) :
    signsAfter afterBar idle (.control c :: rest) = signsAfter false idle rest := rfl

/-- A line break is left out next to a bar and where it ends nothing. -/
theorem signsAfter_newline :
    signsAfter afterBar idle (.newline :: rest) =
      if afterBar || barFollows (rest.filter isVisible) then signsAfter afterBar idle rest
      else if idle then signsAfter false true rest
      else .stop :: signsAfter false true rest := by
  have hfilter : (Token.newline :: rest).filter isVisible = .newline :: rest.filter isVisible := rfl
  rw [signsAfter, hfilter, joinLines]
  split <;> rfl

end Steps

/-! ## What the signs of a text have in common -/

/-- The last sign is a stop. Where the tokens have no sign, the one before them is the last. -/
theorem getLastD_signsAfter (init : List Token) (afterBar : Bool) (previous : Sign) :
    (signsAfter afterBar (previous == .stop) (init ++ [.endOfText])).getLastD previous = .stop := by
  induction init generalizing afterBar previous with
  | nil => by_cases h : previous = .stop <;> simp [h]
  | cons token rest ih =>
    have hstop := ih false .stop
    rw [List.cons_append]
    cases token with
    | blank => exact ih afterBar previous
    | comment => exact ih afterBar previous
    | control c => exact ih false previous
    | ident name => exact (List.getLastD_cons ..).trans (ih false (.name name))
    | arrow => exact (List.getLastD_cons ..).trans (ih false .arrow)
    | bar => exact (List.getLastD_cons ..).trans (ih true .bar)
    | semicolon => by_cases h : previous = .stop <;> simpa [h, List.getLast?_cons] using hstop
    | endOfText => by_cases h : previous = .stop <;> simpa [h, List.getLast?_cons] using hstop
    | newline =>
      rw [signsAfter_newline]
      split
      · exact ih afterBar previous
      · by_cases h : previous = .stop <;> simpa [h, List.getLast?_cons] using hstop

/-- The signs of a text, if there are any, end with a stop. -/
theorem getLastD_effectiveSigns (text : String) : (effectiveSigns text).getLastD .stop = .stop := by
  obtain ⟨init, hinit⟩ := List.getLast?_eq_some_iff.1 (getLast?_tokensOf text.toList)
  rw [effectiveSigns, hinit]
  exact getLastD_signsAfter init false .stop

end Chomsky.Bnf
