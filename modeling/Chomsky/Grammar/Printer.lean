import Chomsky.Grammar.Basic

/-!
# Printed grammars

A grammar is printed with one rule on a line, or with one line for each left side
whose alternatives are separated by bars. Both forms can be read back.
-/

namespace Chomsky.Grammar

/-- One rule on each line. -/
def text (g : Grammar) (t : SymbolTable) : String :=
  String.join ((g.namedRules t).map fun rule => rule.text ++ "\n")

/-- The left sides in the order of their first rules. -/
def leftSides (g : Grammar) : List Symbol := (g.rules.map Rule.lhs).eraseDups

/-- The rules of one left side. -/
def rulesOf (g : Grammar) (s : Symbol) : List Rule := g.rules.filter fun rule => rule.lhs = s

/-- The alternatives of one left side on one line. -/
def groupText (g : Grammar) (t : SymbolTable) (s : Symbol) : String :=
  t.nameOf s ++ " → "
    ++ " | ".intercalate ((g.rulesOf s).map fun rule => (rule.named t).rhsText) ++ "\n"

/-- One line for each left side. -/
def groupedText (g : Grammar) (t : SymbolTable) : String :=
  String.join (g.leftSides.map (g.groupText t))

end Chomsky.Grammar
