import Chomsky.Grammar.Basic

/-!
# Grammars covered by a table

A table covers a grammar when it has handed out every symbol that the grammar
declares or mentions.
-/

namespace Chomsky

/-- The table has handed out the symbol. -/
def SymbolTable.Covers (t : SymbolTable) (s : Symbol) : Prop := s.index < t.size

/-- The table has handed out all symbols of the rule. -/
def Rule.CoveredBy (rule : Rule) (t : SymbolTable) : Prop :=
  t.Covers rule.lhs ∧ ∀ s ∈ rule.rhs, t.Covers s

/-- The table has handed out all symbols of the grammar. -/
structure Grammar.CoveredBy (g : Grammar) (t : SymbolTable) : Prop where
  start : t.Covers g.start
  nonterminals : ∀ s ∈ g.nonterminals, t.Covers s
  terminals : ∀ s ∈ g.terminals, t.Covers s
  rules : ∀ rule ∈ g.rules, rule.CoveredBy t

instance (t : SymbolTable) (s : Symbol) : Decidable (t.Covers s) :=
  inferInstanceAs (Decidable (s.index < t.size))

end Chomsky
