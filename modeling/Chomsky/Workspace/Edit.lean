import Chomsky.Workspace.Basic

/-!
# Edits of a grammar

An edit changes a grammar in its place or adds names to its table, and never
fails.
-/

namespace Chomsky

/-- What can be changed in a grammar and its table. -/
inductive Edit where
  | declareTerminals (names : List String)
  | declareNonterminals (names : List String)
  | intern (name : String)
  | fresh (name suffix : String)
  | addRules (rules : List RuleRef)
  | sort
  | dedup
  | setStart (ref : SymbolRef)

/-- An answer with the grammar and the table after an edit. -/
structure Edited where
  answer : Answer
  grammar : Grammar
  table : SymbolTable

namespace Edit

/-- An edit of the rules answers with all of them. -/
def answerRules (g : Grammar) (t : SymbolTable) : Edited := ⟨.rules (g.namedRules t), g, t⟩

/-- The effect of an edit. -/
def apply (g : Grammar) (t : SymbolTable) : Edit → Edited
  | declareTerminals names =>
    let (ss, t) := t.internAll names
    ⟨.symbols ss, ss.foldl Grammar.addTerminal g, t⟩
  | declareNonterminals names =>
    let (ss, t) := t.internAll names
    ⟨.symbols ss, ss.foldl Grammar.addNonterminal g, t⟩
  | intern name =>
    let (s, t) := t.intern name
    ⟨.symbol s, g, t⟩
  | fresh name suffix =>
    let (s, t) := g.freshSymbol t name suffix
    ⟨.fresh s (t.nameOf s) t.size, g, t⟩
  | addRules refs =>
    let (rules, t) := RuleRef.resolveAll t refs
    answerRules (g.withRules (g.rules ++ rules)) t
  | sort => answerRules (g.sort t) t
  | dedup => answerRules g.dedup t
  | setStart ref =>
    let (s, t) := ref.resolve t
    let g := g.setStart s
    ⟨.grammar (g.named t), g, t⟩

end Edit

end Chomsky
