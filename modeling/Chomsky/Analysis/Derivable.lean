import Chomsky.Grammar.Closure

/-!
# Symbols that derive words

A symbol is productive when it derives some word of terminals, and nullable when
it derives the empty word. The language of a grammar is empty when its start
symbol is not productive.
-/

namespace Chomsky.Grammar

/-- The left sides of the rules with an empty right side. -/
def nullingSymbols (g : Grammar) : SymbolSet :=
  SymbolSet.ofList ((g.rules.filter Rule.isEpsilon).map Rule.lhs)

/-- The symbols that derive the empty word. -/
def nullableSymbols (g : Grammar) : SymbolSet := rhsClosure g.rules g.nullingSymbols

/-- The symbols that derive a word of terminals. Every terminal derives itself. -/
def productiveSymbols (g : Grammar) : SymbolSet :=
  rhsClosure g.rules (g.terminals.union g.nullingSymbols)

/-- Tests whether the start symbol derives no word. -/
def isLanguageEmpty (g : Grammar) : Bool := !g.productiveSymbols.contains g.start

end Chomsky.Grammar
