import Chomsky.Analysis.Derivable
import Chomsky.Analysis.Reachable

/-!
# Removal of useless symbols

Unproductive symbols are removed with every rule that mentions one. Unreachable
symbols are removed with their rules. The start symbol stays declared.
-/

namespace Chomsky.Grammar

/-- Tests whether a rule mentions only symbols of a set. -/
def mentionsOnly (set : SymbolSet) (rule : Rule) : Bool :=
  set.contains rule.lhs && rule.rhs.all set.contains

/-- Removes the unproductive nonterminals, except for the start symbol, and the rules that
mention an unproductive symbol. -/
def removeUnproductive (g : Grammar) : Grammar :=
  let productive := g.productiveSymbols
  { g with
    nonterminals := (g.nonterminals.inter productive).insert g.start
    rules := g.rules.filter (mentionsOnly productive) }

/-- Keeps the declared symbols of a set and the rules for them. -/
def restrictTo (g : Grammar) (set : SymbolSet) : Grammar :=
  { g with
    nonterminals := g.nonterminals.inter set
    terminals := g.terminals.inter set
    rules := g.rules.filter fun rule => set.contains rule.lhs }

/-- Removes the symbols that the start symbol does not reach, and the rules for them. -/
def removeUnreachable (g : Grammar) (size : Nat) : Except RangeError Grammar :=
  (g.reachableSymbols size).map g.restrictTo

/-- Removes first the unproductive symbols, then the unreachable ones. -/
def removeUseless (g : Grammar) (size : Nat) : Except RangeError Grammar :=
  g.removeUnproductive.removeUnreachable size

end Chomsky.Grammar
