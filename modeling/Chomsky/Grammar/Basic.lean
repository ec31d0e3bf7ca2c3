import Chomsky.Grammar.Rule
import Chomsky.Symbol.Set

/-!
# Context-free grammars

A grammar has a start symbol, two sets of declared symbols and an ordered list of
rules. The names of its symbols live in a symbol table, which several grammars
may share. Nothing forces the declarations to fit the rules: that is checked
separately.
-/

namespace Chomsky

/-- A context-free grammar. -/
structure Grammar where
  start : Symbol
  nonterminals : SymbolSet := ∅
  terminals : SymbolSet := ∅
  rules : List Rule := []

/-- A grammar with names in place of symbols. The declared names are listed in the
order of their numbers. -/
structure NamedGrammar where
  start : String
  nonterminals : List String
  terminals : List String
  rules : List NamedRule
deriving DecidableEq

namespace Grammar

/-- Tests for a declared terminal. -/
def isTerminal (g : Grammar) (s : Symbol) : Bool := g.terminals.contains s

/-- Tests for a declared nonterminal. -/
def isNonterminal (g : Grammar) (s : Symbol) : Bool := g.nonterminals.contains s

/-- Tests for a declared symbol. -/
def isDeclared (g : Grammar) (s : Symbol) : Bool := g.isTerminal s || g.isNonterminal s

/-- The grammar with other rules. -/
def withRules (g : Grammar) (rules : List Rule) : Grammar := { g with rules }

/-- The grammar with one more rule at the end. -/
def addRule (g : Grammar) (rule : Rule) : Grammar := { g with rules := g.rules ++ [rule] }

/-- The grammar with one more nonterminal. -/
def addNonterminal (g : Grammar) (s : Symbol) : Grammar :=
  { g with nonterminals := g.nonterminals.insert s }

/-- The grammar with one more terminal. -/
def addTerminal (g : Grammar) (s : Symbol) : Grammar :=
  { g with terminals := g.terminals.insert s }

/-- The grammar with another start symbol, which becomes a nonterminal. -/
def setStart (g : Grammar) (s : Symbol) : Grammar := { g.addNonterminal s with start := s }

/-- The declared symbol of a name. -/
def declared? (g : Grammar) (t : SymbolTable) (name : String) : Option Symbol :=
  (t.find? name).filter g.isDeclared

/-- Tests whether a declared symbol has the name. -/
def isTaken (g : Grammar) (t : SymbolTable) (name : String) : Bool := (g.declared? t name).isSome

/-- The rules with the names that a table gives to their symbols. -/
def namedRules (g : Grammar) (t : SymbolTable) : List NamedRule := g.rules.map (Rule.named t)

/-- The grammar with the names that a table gives to its symbols. -/
def named (g : Grammar) (t : SymbolTable) : NamedGrammar where
  start := t.nameOf g.start
  nonterminals := g.nonterminals.toList.map t.nameOf
  terminals := g.terminals.toList.map t.nameOf
  rules := g.namedRules t

/-- Sorts the rules by names. Rules with equal names keep their order. -/
def sort (g : Grammar) (t : SymbolTable) : Grammar :=
  g.withRules (g.rules.mergeSort (Rule.leByName t))

/-- Sorts the rules by symbol numbers. -/
def sortByNumber (g : Grammar) : Grammar := g.withRules (g.rules.mergeSort Rule.leByNumber)

end Grammar

/-- Leaves out every element that equals the one before it. -/
def dropRepeats {α : Type} [DecidableEq α] : List α → List α
  | [] => []
  | [a] => [a]
  | a :: b :: rest => if a = b then dropRepeats (b :: rest) else a :: dropRepeats (b :: rest)

namespace Grammar

/-- Leaves out every rule that equals the one before it. -/
def dedup (g : Grammar) : Grammar := g.withRules (dropRepeats g.rules)

end Grammar

end Chomsky
