import Chomsky.Analysis.Usefulness
import Chomsky.Grammar.Occurrences
import Chomsky.Grammar.Printer
import Chomsky.NormalForm.Pipeline

/-!
# Reports on grammars

What can be seen of a grammar and of its analyses, with names in place of symbols
where a reader wants names.
-/

namespace Chomsky

/-- A grammar as it is shown. -/
structure Overview where
  grammar : NamedGrammar
  text : String
  groupedText : String
  ruleTexts : List String
  symbols : List String
deriving DecidableEq

/-- A useless rule as it is shown. -/
structure UselessReport where
  text : String
  unreachable : Bool
  unproductive : Bool
deriving DecidableEq

/-- The usefulness of a grammar as it is shown. -/
structure UsefulnessReport where
  productive : List String
  reachable : List String
  allUseful : Bool
  allProductive : Bool
  allReachable : Bool
  useless : List UselessReport
deriving DecidableEq

/-- All analyses of a grammar. Relations are listed by rows, one for each symbol of the table. -/
structure AnalysisReport where
  symbols : List String
  isLanguageEmpty : Bool
  productive : SymbolSet
  nulling : SymbolSet
  nullable : SymbolSet
  reachable : SymbolSet
  direct : List (List Symbol)
  reachability : List (List Symbol)
  unit : List (List Symbol)
  unitRules : List Bool
  nullingRules : List Bool
  occurrences : List (Symbol × Occurrences)
  usefulness : UsefulnessReport

/-- The outcome of normalization as it is shown. -/
inductive NormalizedReport where
  | emptyLanguage
  | cnf (productive reachable epsilonFree unitFree cnf : NamedGrammar) (text : String)
      (symbols : List String)
deriving DecidableEq

/-- The rows of a relation for the given symbols. -/
def SymbolRelation.rowsOf (r : SymbolRelation) (symbols : List Symbol) :
    Except RangeError (List (List Symbol)) :=
  symbols.mapM r.row

namespace Grammar

/-- What is shown of a grammar. -/
def overview (g : Grammar) (t : SymbolTable) : Overview where
  grammar := g.named t
  text := g.text t
  groupedText := g.groupedText t
  ruleTexts := (g.namedRules t).map NamedRule.text
  symbols := t.names

/-- What is shown of the usefulness of a grammar. -/
def usefulnessReport (g : Grammar) (t : SymbolTable) : Except RangeError UsefulnessReport := do
  let u ← Usefulness.ofGrammar g t.size
  return {
    productive := (t.symbols.filter u.productive.contains).map t.nameOf
    reachable := (t.symbols.filter u.reachable.contains).map t.nameOf
    allUseful := u.allUseful g.rules
    allProductive := u.allProductive g.rules
    allReachable := u.allReachable g.rules
    useless := (u.uselessRules g.rules).map fun verdict =>
      ⟨(verdict.rule.named t).text, verdict.unreachable, verdict.unproductive⟩ }

/-- The occurrences of the given symbols. -/
def occurrences (g : Grammar) (symbols : List Symbol) : List (Symbol × Occurrences) :=
  symbols.map fun s => (s, occurrencesOf g.rules s)

/-- All analyses of a grammar. -/
def analyze (g : Grammar) (t : SymbolTable) : Except RangeError AnalysisReport := do
  let direct ← g.directDerivation t.size
  let reachability ← g.reachability t.size
  let unit ← g.unitDerivation t.size
  return {
    symbols := t.names
    isLanguageEmpty := g.isLanguageEmpty
    productive := g.productiveSymbols
    nulling := g.nullingSymbols
    nullable := g.nullableSymbols
    reachable := ← g.reachableSymbols t.size
    direct := ← direct.rowsOf t.symbols
    reachability := ← reachability.rowsOf t.symbols
    unit := ← unit.rowsOf t.symbols
    unitRules := g.rules.map g.isUnitRule
    nullingRules := g.rules.map Rule.isEpsilon
    occurrences := g.occurrences t.symbols
    usefulness := ← g.usefulnessReport t }

end Grammar

/-- What is shown of a normalization, with the names of the final table. -/
def Normalized.report (t : SymbolTable) : Normalized → NormalizedReport
  | emptyLanguage => .emptyLanguage
  | cnf stages =>
    .cnf (stages.productive.named t) (stages.reachable.named t) (stages.epsilonFree.named t)
      (stages.unitFree.named t) (stages.cnf.named t) (stages.cnf.text t) t.names

end Chomsky
