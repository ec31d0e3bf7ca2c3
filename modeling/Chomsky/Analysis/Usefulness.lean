import Chomsky.Analysis.Derivable
import Chomsky.Analysis.Reachable

/-!
# Usefulness of rules

A rule is useful when all symbols of its right side are productive and its left
side is reachable from the start symbol through rules of that kind.
-/

namespace Chomsky

/-- The productive symbols, and those reachable through productive rules. -/
structure Usefulness where
  productive : SymbolSet
  reachable : SymbolSet

/-- A rule with the reasons why it is useless. -/
structure UselessRule where
  rule : Rule
  unreachable : Bool
  unproductive : Bool
deriving DecidableEq

namespace Usefulness

/-- Tests whether all symbols of a right side are productive. -/
def isProductiveRule (productive : SymbolSet) (rule : Rule) : Bool :=
  rule.rhs.all productive.contains

/-- Analyses a grammar over a table of the given size. -/
def ofGrammar (g : Grammar) (size : Nat) : Except RangeError Usefulness := do
  let productive := g.productiveSymbols
  let reachable ← reachableFrom size (g.rules.filter (isProductiveRule productive)) g.start
  return { productive, reachable }

/-- The verdict on one rule. -/
def judge (u : Usefulness) (rule : Rule) : UselessRule where
  rule
  unreachable := !u.reachable.contains rule.lhs
  unproductive := !isProductiveRule u.productive rule

/-- The useless rules among the given ones. -/
def uselessRules (u : Usefulness) (rules : List Rule) : List UselessRule :=
  (rules.map u.judge).filter fun verdict => verdict.unreachable || verdict.unproductive

/-- Tests whether all given rules are useful. -/
def allUseful (u : Usefulness) (rules : List Rule) : Bool := (u.uselessRules rules).isEmpty

/-- Tests whether all given rules are productive. -/
def allProductive (u : Usefulness) (rules : List Rule) : Bool :=
  (u.uselessRules rules).all fun verdict => !verdict.unproductive

/-- Tests whether all given rules are reachable. -/
def allReachable (u : Usefulness) (rules : List Rule) : Bool :=
  (u.uselessRules rules).all fun verdict => !verdict.unreachable

end Usefulness

end Chomsky
