import Chomsky.Grammar.Basic

/-!
# Validity of grammars

In a valid grammar the terminals and nonterminals are disjoint, `ε` is no
declared name, the start symbol is a nonterminal, every left side is a
nonterminal and every symbol of a right side is declared.
-/

namespace Chomsky

/-- What is wrong with a grammar or its description. -/
inductive GrammarError where
  /-- The start symbol is no declared nonterminal. -/
  | undeclaredStart (start : String)
  /-- A name is declared both as a terminal and as a nonterminal. -/
  | conflictingDeclaration (name : String)
  /-- The marker of empty right sides is declared. -/
  | reservedEpsilon
  /-- A terminal is the left side of a rule. -/
  | terminalOnLhs (lhs : String)
  /-- A rule mentions an undeclared symbol. -/
  | malformedReference (lhs symbol : String)
  /-- The marker of empty right sides stands next to other names. -/
  | misplacedEpsilon (lhs : String)
  /-- A right side has no name at all, not even the marker. -/
  | emptyRhs (lhs : String)
deriving DecidableEq

namespace GrammarError

/-- The error in words. -/
def message : GrammarError → String
  | undeclaredStart start => "start symbol `" ++ start ++ "` is not a declared nonterminal"
  | conflictingDeclaration name =>
    "`" ++ name ++ "` is declared both as a terminal and a nonterminal"
  | reservedEpsilon => "`" ++ epsilonMark ++ "` is reserved for empty productions"
  | terminalOnLhs lhs => "terminal `" ++ lhs ++ "` on the left-hand side of a rule"
  | malformedReference lhs symbol =>
    "rule for `" ++ lhs ++ "` refers to undeclared symbol `" ++ symbol ++ "`"
  | misplacedEpsilon lhs =>
    "rule for `" ++ lhs ++ "` has `" ++ epsilonMark ++ "` next to other symbols"
  | emptyRhs lhs => "rule for `" ++ lhs ++ "` has an empty right-hand side"

end GrammarError

namespace Grammar

/-- What is wrong with one rule: its left side comes before its right side. -/
def ruleFault? (g : Grammar) (t : SymbolTable) (rule : Rule) : Option GrammarError :=
  let lhs := t.nameOf rule.lhs
  if g.isNonterminal rule.lhs then
    (rule.rhs.find? fun s => !g.isDeclared s).map fun s => .malformedReference lhs (t.nameOf s)
  else if g.isTerminal rule.lhs then some (.terminalOnLhs lhs)
  else some (.malformedReference lhs lhs)

/-- What is wrong with the declarations. -/
def declarationFault? (g : Grammar) (t : SymbolTable) : Option GrammarError :=
  match g.terminals.toList.find? g.isNonterminal with
  | some s => some (.conflictingDeclaration (t.nameOf s))
  | none =>
    if g.isTaken t epsilonMark then some .reservedEpsilon
    else if g.isNonterminal g.start then none
    else some (.undeclaredStart (t.nameOf g.start))

/-- The first fault of a grammar: the declarations come before the rules. -/
def fault? (g : Grammar) (t : SymbolTable) : Option GrammarError :=
  (g.declarationFault? t).or (g.rules.findSome? (g.ruleFault? t))

/-- Reports the first fault of a grammar. -/
def validate (g : Grammar) (t : SymbolTable) : Except GrammarError Unit :=
  match g.fault? t with
  | some e => .error e
  | none => .ok ()

end Grammar

end Chomsky
