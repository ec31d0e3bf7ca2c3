import Chomsky.Grammar.Validity
import Chomsky.NormalForm.Binary
import Chomsky.NormalForm.EpsilonFree
import Chomsky.NormalForm.UnitFree

/-!
# The way to Chomsky normal form

A valid grammar with a non-empty language passes through the transformations in a
fixed order: unproductive symbols go, unreachable symbols go, epsilon rules go,
unit rules go, long rules are split, and what became useless goes. The rules of
the result are sorted, each listed once. All intermediate grammars are kept.
Each step records its events.
-/

namespace Chomsky

/-- Why a transformation of a grammar failed. -/
inductive TransformError where
  /-- The grammar is not valid. -/
  | invalid (e : GrammarError)
  /-- A symbol of the grammar is beyond its table. -/
  | range (e : RangeError)
deriving DecidableEq

/-- The grammars on the way to normal form. -/
structure Stages where
  /-- Only productive symbols are left. -/
  productive : Grammar
  /-- Only reachable symbols are left. -/
  reachable : Grammar
  /-- Only a new start symbol has an epsilon rule. -/
  epsilonFree : Grammar
  /-- No unit rule is left. -/
  unitFree : Grammar
  /-- The grammar in normal form. -/
  cnf : Grammar

/-- The outcome of normalization. -/
inductive Normalized where
  /-- The start symbol derives no word. -/
  | emptyLanguage
  /-- The grammar was brought into normal form. -/
  | cnf (stages : Stages)

namespace Grammar

variable {ε : Type}

/-- Removes unproductive symbols and records how many rules are left. -/
def journalUnproductive (g : Grammar) : Journaled ε Grammar := do
  let result := g.removeUnproductive
  Journaled.record (.productivity result.rules.length g.rules.length)
  return result

/-- Removes unreachable symbols and records how many rules are left. -/
def journalUnreachable (g : Grammar) (t : SymbolTable) : Journaled RangeError Grammar := do
  let result ← Journaled.ofExcept (g.removeUnreachable t.size)
  Journaled.record (.reachability result.rules.length g.rules.length)
  return result

/-- Removes useless symbols in two recorded steps. -/
def journalUseless (g : Grammar) (t : SymbolTable) : Journaled RangeError Grammar := do
  (← g.journalUnproductive).journalUnreachable t

/-- Eliminates epsilon rules. Records a new start symbol, the removal of symbols that became
unproductive, and how many rules are left. -/
def journalEpsilon (g : Grammar) (t : SymbolTable) (naming : Naming) :
    Journaled ε (Grammar × SymbolTable) := do
  let nullable := g.nullableSymbols
  let (expanded, t) := g.expandEpsilon t naming
  if nullable.contains g.start then Journaled.record (.newStart (t.nameOf expanded.start))
  let result ← expanded.journalUnproductive
  Journaled.record (.nulling result.rules.length g.rules.length nullable.card)
  return (result, t)

/-- Eliminates unit rules and records how many rules are left. -/
def journalUnits (g : Grammar) (t : SymbolTable) : Journaled RangeError Grammar := do
  let result ← Journaled.ofExcept (g.eliminateUnits t.size)
  Journaled.record (.unitRules result.rules.length g.rules.length)
  return result

/-- Splits long rules. Records each introduced nonterminal and the numbers of rules. -/
def journalBinary (g : Grammar) (memo : BinaryMemo) (t : SymbolTable) :
    Journaled ε Binarization := do
  let result := g.binarize memo t
  Journaled.recordAll result.events
  Journaled.record (.binarization result.grammar.rules.length g.rules.length
    result.memo.wrappers.length result.memo.helpers.length)
  return result

/-- Passes a grammar through all transformations, whatever its language. -/
def journalStages (g : Grammar) (t : SymbolTable) (naming : Naming) :
    Journaled RangeError (Stages × SymbolTable) := do
  let productive ← g.journalUnproductive
  let reachable ← productive.journalUnreachable t
  let (epsilonFree, t) ← reachable.journalEpsilon t naming
  let unitFree ← epsilonFree.journalUnits t
  let binary ← unitFree.journalBinary { naming } t
  let useful ← binary.grammar.journalUseless binary.table
  let cnf := (useful.sort binary.table).dedup
  Journaled.record (.normalized (binary.table.nameOf g.start) g.rules.length cnf.rules.length)
  return ({ productive, reachable, epsilonFree, unitFree, cnf }, binary.table)

/-- Brings a valid grammar into Chomsky normal form. The table comes back with the names of the
introduced nonterminals. -/
def normalize (g : Grammar) (t : SymbolTable) (naming : Naming) :
    Journaled TransformError (Normalized × SymbolTable) := do
  (Journaled.ofExcept (g.validate t)).mapError .invalid
  if g.isLanguageEmpty then
    Journaled.record (.emptyLanguage (t.nameOf g.start))
    return (.emptyLanguage, t)
  let (stages, t) ← (g.journalStages t naming).mapError .range
  return (.cnf stages, t)

end Grammar

end Chomsky
