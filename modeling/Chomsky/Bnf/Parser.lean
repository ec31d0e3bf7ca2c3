import Chomsky.Bnf.Lexer
import Chomsky.Bnf.Tree

/-!
# Reading grammar text

The signs of a text are scanned from left to right, each with the number of its
lexeme, and a parse of them grows along. Its value is a list of rules, one for each
alternative. The names on the left are the nonterminals, the first of them is the
start symbol, and every other name except `ε` is a terminal.

An error is reported at the first control character or at the first sign that
cannot follow the signs before it. The numbers of lexemes have 32 bits, so in a text
with more lexemes a name can be looked up at the wrong place, and if no name is
found there the parse has no value.
-/

namespace Chomsky.Bnf

/-- Why a text could not be read. -/
inductive Fault where
  /-- A control character. -/
  | control (c : Char)
  /-- A token that cannot follow those before it. -/
  | misplaced (token : Token)
  /-- No rule at all. -/
  | noRules
  /-- A parse whose value is no list of rules. -/
  | noValue (found : Value)
deriving DecidableEq

/-- A fault and where it was found. -/
structure ParseError where
  fault : Fault
  position : Position
deriving DecidableEq

namespace ParseError

/-- The reason in words. -/
def reason (e : ParseError) : String :=
  match e.fault with
  | .control c => "unexpected character " ++ Text.quoteSingle c
  | .misplaced _ => "parse failed"
  | .noRules => "expected at least one rule"
  | .noValue found => "evaluation failed: expected rules, got " ++ found.text

/-- The token at which the error was found. -/
def token? (e : ParseError) : Option Token :=
  match e.fault with
  | .control c => some (.control c)
  | .misplaced token => some token
  | .noRules | .noValue _ => none

/-- The token as it is shown in the message. -/
def tokenText (e : ParseError) : String :=
  match e.token? with
  | some token => "Some(" ++ token.text ++ ")"
  | none => "None"

/-- The error in words. -/
def message (e : ParseError) : String :=
  "Parse error at line " ++ Text.decimal e.position.line.toNat ++ " column "
    ++ Text.decimal e.position.column.toNat ++ ": reason: " ++ e.reason ++ " token: " ++ e.tokenText

end ParseError

/-- What was read of the current rule. -/
inductive Reading (α : Type) where
  /-- Nothing yet. -/
  | ruleStart
  /-- The left name. -/
  | leftName (lhs : α)
  /-- Everything up to the start of an alternative: the finished alternatives with the bar after
  them, if there are any. -/
  | alternativeStart (lhs arrow : α) (finished : Option (Tree α .alternatives × α))
  /-- Some names of an alternative, after the finished alternatives. -/
  | alternative (lhs arrow : α) (finished : Option (Tree α .alternatives × α))
    (names : Tree α .alternative)

/-- The finished alternatives and one more. -/
def addAlternative {α : Type} (finished : Option (Tree α .alternatives × α))
    (names : Tree α .alternative) : Tree α .alternatives :=
  match finished with
  | none => .firstAlternative names
  | some (before, bar) => .nextAlternative before bar names

/-- What was read of a text: a parse of the finished rules, if there are any, and the current
rule. -/
structure Recognizer (α : Type) where
  finished : Option (Tree α .grammar) := none
  reading : Reading α := .ruleStart

namespace Recognizer

variable {α : Type}

/-- The finished rules and one more. -/
def addRule (finished : Option (Tree α .grammar)) (last : Tree α .rule) : Tree α .grammar :=
  match finished with
  | none => .firstRule last
  | some before => .nextRule before last

/-- Reads one sign with its label. Yields nothing if it is misplaced. -/
def scan (r : Recognizer α) (kind : Terminal) (label : α) : Option (Recognizer α) :=
  match r.reading, kind with
  | .ruleStart, .name => some { r with reading := .leftName label }
  | .leftName lhs, .arrow => some { r with reading := .alternativeStart lhs label none }
  | .alternativeStart lhs arrow finished, .name =>
    some { r with reading := .alternative lhs arrow finished (.firstName label) }
  | .alternative lhs arrow finished names, .name =>
    some { r with reading := .alternative lhs arrow finished (names.nextName label) }
  | .alternative lhs arrow finished names, .bar =>
    some { r with reading :=
      .alternativeStart lhs arrow (some (addAlternative finished names, label)) }
  | .alternative lhs arrow finished names, .stop =>
    let last := .rule lhs arrow (addAlternative finished names) label
    some { finished := addRule r.finished last, reading := .ruleStart }
  | _, _ => none

/-- A parse of everything that was read, unless a rule is unfinished or there is none. -/
def tree? (r : Recognizer α) : Option (Tree α .grammar) :=
  match r.reading with
  | .ruleStart => r.finished
  | _ => none

end Recognizer

/-- Reads marks from left to right. A sign is labelled with the number of its lexeme. -/
def readMarks (r : Recognizer UInt32) : List Placed → Except ParseError (Recognizer UInt32)
  | [] => .ok r
  | ⟨.control c, lexeme, _⟩ :: _ => .error ⟨.control c, lexeme.position⟩
  | ⟨.sign kind, lexeme, place⟩ :: rest =>
    match r.scan kind (UInt32.ofNat place) with
    | none => .error ⟨.misplaced lexeme.token, lexeme.position⟩
    | some next => readMarks next rest

/-- The description that a list of rules determines. -/
def describe (start : String) (rules : List RuleDescription) : Description :=
  let nonterminals := NameSet.ofList (rules.map RuleDescription.lhs)
  let rightNames := rules.flatMap fun rule => Text.words rule.rhs
  { start, nonterminals, rules
    terminals := NameSet.ofList
      (rightNames.filter fun name => name != epsilonMark && !nonterminals.contains name) }

/-- The description that was read of lexemes, or what is wrong with it at the last position. -/
def conclude (found : List Lexeme) (last : Position) (r : Recognizer UInt32) :
    Except ParseError Description :=
  match r.tree? with
  | none => .error ⟨.noRules, last⟩
  | some tree =>
    match tree.value (Value.ofSign found.toArray) with
    | .rules [] => .error ⟨.noRules, last⟩
    | .rules (rule :: rest) => .ok (describe rule.lhs (rule :: rest))
    | value => .error ⟨.noValue value, last⟩

/-- Reads a grammar text. -/
def parse (text : String) : Except ParseError Description := do
  let found := lexemes text
  let r ← readMarks {} (marks found)
  conclude found (Position.after {} text.toList) r

/-- Reads a grammar text and records the number of rules. -/
def journalParse (text : String) : Journaled ParseError Description := do
  let d ← Journaled.ofExcept (parse text)
  Journaled.record (.loaded d.rules.length d.start)
  return d

/-- Why a text does not yield a grammar. -/
inductive LoadError where
  /-- The text cannot be read. -/
  | parse (e : ParseError)
  /-- What was read describes no grammar. -/
  | grammar (e : GrammarError)
deriving DecidableEq

/-- The error in words. -/
def LoadError.message : LoadError → String
  | parse e => e.message
  | grammar e => e.message

/-- Reads a grammar text and builds its grammar. -/
def load (text : String) : Journaled LoadError (Grammar × SymbolTable) := do
  let d ← (journalParse text).mapError .parse
  d.journalGrammar.mapError .grammar

end Chomsky.Bnf
