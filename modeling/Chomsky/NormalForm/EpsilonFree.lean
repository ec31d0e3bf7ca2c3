import Chomsky.Grammar.Distinct
import Chomsky.Grammar.Fresh
import Chomsky.NormalForm.Naming
import Chomsky.NormalForm.Useful

/-!
# Elimination of epsilon rules

Every rule is expanded into one rule for each way of leaving out nullable symbols
from its right side, as long as some symbol is left. When the start symbol is
nullable, a fresh start symbol derives it and the empty word. Nonterminals that
had only epsilon rules become unproductive and are removed.
-/

namespace Chomsky

/-- Every way of leaving out nullable symbols. The entry at position `m` leaves out the `j`-th
nullable symbol exactly if bit `j` of `m` is set. -/
def omissions (nullable : SymbolSet) (rhs : List Symbol) : List (List Symbol) :=
  rhs.foldl (fun found s =>
    let kept := found.map (· ++ [s])
    if nullable.contains s then kept ++ found else kept) [[]]

/-- The ways of leaving out nullable symbols that leave some symbol. -/
def variants (nullable : SymbolSet) (rhs : List Symbol) : List (List Symbol) :=
  (omissions nullable rhs).filter fun variant => !variant.isEmpty

namespace Grammar

/-- The rules without epsilon rules, expanded by a set of nullable symbols. Of equal rules only
the first is kept. -/
def expandedRules (g : Grammar) (nullable : SymbolSet) : List Rule :=
  distinctRules <| (g.rules.filter fun rule => !rule.isEpsilon).flatMap fun rule =>
    (variants nullable rule.rhs).map (Rule.mk rule.lhs)

/-- The expanded grammar without a new start symbol. -/
def expandNullable (g : Grammar) : Grammar := g.withRules (g.expandedRules g.nullableSymbols)

/-- The name that a new start symbol is to have. -/
def newStartName (g : Grammar) (t : SymbolTable) (naming : Naming) : String :=
  t.nameOf g.start ++ naming.startSuffix

/-- A symbol that is not declared, to replace the start symbol. -/
def newStart (g : Grammar) (t : SymbolTable) (naming : Naming) : Symbol × SymbolTable :=
  g.freshSymbol t (g.newStartName t naming) naming.startSuffix

/-- Makes `s` the start symbol, which derives the former one and the empty word. -/
def prependStart (g : Grammar) (s : Symbol) : Grammar :=
  ((g.setStart s).addRule ⟨s, [g.start]⟩).addRule ⟨s, []⟩

/-- The expanded grammar, with a new start symbol if the start symbol is nullable. -/
def expandEpsilon (g : Grammar) (t : SymbolTable) (naming : Naming) : Grammar × SymbolTable :=
  if g.nullableSymbols.contains g.start then
    let (s, t) := g.newStart t naming
    (g.expandNullable.prependStart s, t)
  else (g.expandNullable, t)

/-- Eliminates epsilon rules. Only a new start symbol keeps one. -/
def eliminateEpsilon (g : Grammar) (t : SymbolTable) (naming : Naming) : Grammar × SymbolTable :=
  let (expanded, t) := g.expandEpsilon t naming
  (expanded.removeUnproductive, t)

end Grammar

end Chomsky
