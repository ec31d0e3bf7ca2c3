import Chomsky.Grammar.Basic

/-!
# Occurrences of symbols in rules

The positions of the rules in which a symbol stands on the left or on the right.
A rule that mentions a symbol several times on the right is listed once.
-/

namespace Chomsky

/-- Positions of rules in a rule list, in ascending order. -/
structure Occurrences where
  lhs : List Nat
  rhs : List Nat
deriving DecidableEq

/-- The positions of the rules that satisfy a test. -/
def positionsWhere (rules : List Rule) (p : Rule → Bool) : List Nat :=
  (rules.zipIdx.filter fun (rule, _) => p rule).map Prod.snd

/-- Where a symbol occurs in a rule list. -/
def occurrencesOf (rules : List Rule) (s : Symbol) : Occurrences where
  lhs := positionsWhere rules fun rule => rule.lhs = s
  rhs := positionsWhere rules fun rule => rule.rhs.contains s

end Chomsky
