import Chomsky.Analysis.Reachable
import Chomsky.Grammar.Distinct

/-!
# Elimination of unit rules

A nonterminal takes over the rules of every symbol that it derives by unit rules,
except for the unit rules themselves.
-/

namespace Chomsky.Grammar

/-- The rules of a symbol that are not unit rules. -/
def properRulesOf (g : Grammar) (s : Symbol) : List Rule :=
  g.rules.filter fun rule => rule.lhs = s && !g.isUnitRule rule

/-- What a nonterminal takes over from the given symbols. Of equal rules only the first is
kept. -/
def inheritedRules (g : Grammar) (lhs : Symbol) (derived : List Symbol) : List Rule :=
  distinctRules ((derived.flatMap g.properRulesOf).map fun rule => Rule.mk lhs rule.rhs)

/-- The rules that the listed nonterminals inherit by unit derivation. -/
def unitFreeRules (g : Grammar) (unitDerivation : SymbolRelation) :
    List Symbol → Except RangeError (List Rule)
  | [] => .ok []
  | lhs :: rest => do
    let derived ← unitDerivation.row lhs
    let others ← g.unitFreeRules unitDerivation rest
    return g.inheritedRules lhs derived ++ others

/-- Eliminates unit rules. -/
def eliminateUnits (g : Grammar) (size : Nat) : Except RangeError Grammar := do
  let unitDerivation ← g.unitDerivation size
  let rules ← g.unitFreeRules unitDerivation g.nonterminals.toList
  return g.withRules rules

end Chomsky.Grammar
