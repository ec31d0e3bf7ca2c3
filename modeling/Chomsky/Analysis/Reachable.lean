import Chomsky.Grammar.Basic
import Chomsky.Symbol.Relation

/-!
# Derivation relations between symbols

A symbol directly derives every symbol on the right of its rules. Reachability is
the transitive closure of direct derivation. Unit derivation follows unit rules
only, those whose right side is a single nonterminal, and relates every symbol to
itself. The relations cover the symbols of a table of the given size, and a rule
with a symbol beyond it may be out of range.
-/

namespace Chomsky

/-- Each rule relates its left side to the symbols of its right side. -/
def derivationPairs (rules : List Rule) : List (Symbol × Symbol) :=
  rules.flatMap fun rule => rule.rhs.map (rule.lhs, ·)

/-- Direct derivation by the given rules. -/
def directDerivationOf (size : Nat) (rules : List Rule) : Except RangeError SymbolRelation :=
  SymbolRelation.ofPairs size (derivationPairs rules)

/-- Derivation in one or more steps by the given rules. -/
def reachabilityOf (size : Nat) (rules : List Rule) : Except RangeError SymbolRelation :=
  (directDerivationOf size rules).map SymbolRelation.transitiveClosure

/-- The symbol itself and those that it reaches by the given rules. -/
def reachableFrom (size : Nat) (rules : List Rule) (s : Symbol) : Except RangeError SymbolSet := do
  let reachability ← reachabilityOf size rules
  let row ← reachability.rowSet s
  return row.insert s

namespace Grammar

/-- Direct derivation. -/
def directDerivation (g : Grammar) (size : Nat) : Except RangeError SymbolRelation :=
  directDerivationOf size g.rules

/-- Derivation in one or more steps. -/
def reachability (g : Grammar) (size : Nat) : Except RangeError SymbolRelation :=
  reachabilityOf size g.rules

/-- The start symbol and those that it reaches. -/
def reachableSymbols (g : Grammar) (size : Nat) : Except RangeError SymbolSet :=
  reachableFrom size g.rules g.start

/-- The nonterminal that a unit rule consists of. -/
def unitTarget? (g : Grammar) (rule : Rule) : Option Symbol :=
  match rule.rhs with
  | [s] => if g.isNonterminal s then some s else none
  | _ => none

/-- Tests whether the right side is a single nonterminal. -/
def isUnitRule (g : Grammar) (rule : Rule) : Bool := (g.unitTarget? rule).isSome

/-- Each unit rule relates its left side to its right side. -/
def unitPairs (g : Grammar) : List (Symbol × Symbol) :=
  g.rules.filterMap fun rule => (g.unitTarget? rule).map (rule.lhs, ·)

/-- Derivation by unit rules in any number of steps, none included. -/
def unitDerivation (g : Grammar) (size : Nat) : Except RangeError SymbolRelation :=
  (SymbolRelation.ofPairs size g.unitPairs).map fun r => r.transitiveClosure.reflexiveClosure

end Grammar

end Chomsky
