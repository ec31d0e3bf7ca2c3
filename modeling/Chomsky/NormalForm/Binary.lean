import Chomsky.Grammar.Fresh
import Chomsky.Journal
import Chomsky.NormalForm.Naming

/-!
# Splitting of long rules

In a rule with two or more symbols on the right, each terminal is replaced by a
wrapper, a nonterminal whose only rule is that terminal. As long as more than two
symbols remain, the leftmost two are replaced by a helper, a nonterminal whose
only rule is that pair. A memo remembers the wrapper of each terminal and the
helper of each pair, so that none is introduced twice. It may serve several
grammars in turn.
-/

namespace Chomsky

/-- The introduced nonterminals, and the number of the last helper. -/
structure BinaryMemo where
  naming : Naming := {}
  wrappers : List (Symbol × Symbol) := []
  helpers : List ((Symbol × Symbol) × Symbol) := []
  lastNumber : Nat := 0
deriving DecidableEq

namespace BinaryMemo

/-- The wrapper of a terminal. -/
def wrapper? (memo : BinaryMemo) (terminal : Symbol) : Option Symbol :=
  memo.wrappers.lookup terminal

/-- The helper of a pair of symbols. -/
def helper? (memo : BinaryMemo) (left right : Symbol) : Option Symbol :=
  memo.helpers.lookup (left, right)

end BinaryMemo

/-- A grammar under construction, with the memo, the table and the events so far. Until the
work is finished, the latest rule and the latest event come first. -/
structure Binarization where
  memo : BinaryMemo
  table : SymbolTable
  grammar : Grammar
  events : List Event := []

namespace Binarization

/-- Adds a rule. -/
def emit (b : Binarization) (rule : Rule) : Binarization :=
  { b with grammar := b.grammar.withRules (rule :: b.grammar.rules) }

/-- Declares a nonterminal with a single rule. -/
def define (b : Binarization) (s : Symbol) (rhs : List Symbol) : Binarization :=
  ({ b with grammar := b.grammar.addNonterminal s }).emit ⟨s, rhs⟩

/-- Records an event. -/
def record (b : Binarization) (event : Event) : Binarization :=
  { b with events := event :: b.events }

/-- Introduces the wrapper of a terminal. -/
def addWrapper (b : Binarization) (terminal : Symbol) : Symbol × Binarization :=
  let naming := b.memo.naming
  let name := naming.wrapperStem ++ b.table.nameOf terminal
  let (s, table) := b.grammar.freshSymbol b.table name naming.startSuffix
  let memo := { b.memo with wrappers := (terminal, s) :: b.memo.wrappers }
  let event := Event.wrapper (table.nameOf s) (table.nameOf terminal)
  (s, (({ b with memo, table }).define s [terminal]).record event)

/-- The wrapper of a terminal, introduced if there is none yet. -/
def wrap (b : Binarization) (terminal : Symbol) : Symbol × Binarization :=
  match b.memo.wrapper? terminal with
  | some s => (s, b)
  | none => b.addWrapper terminal

/-- Introduces the helper of a pair of symbols. -/
def addHelper (b : Binarization) (left right : Symbol) : Symbol × Binarization :=
  let stem := b.memo.naming.helperStem
  let number := b.grammar.freshNumber b.table stem (b.memo.lastNumber + 1)
  let (s, table) := b.table.intern (numberedName stem number)
  let memo :=
    { b.memo with helpers := ((left, right), s) :: b.memo.helpers, lastNumber := number }
  let event := Event.helper (table.nameOf s) (table.nameOf left) (table.nameOf right)
  (s, (({ b with memo, table }).define s [left, right]).record event)

/-- The helper of a pair of symbols, introduced if there is none yet. -/
def pair (b : Binarization) (left right : Symbol) : Symbol × Binarization :=
  match b.memo.helper? left right with
  | some s => (s, b)
  | none => b.addHelper left right

/-- Replaces a terminal by its wrapper and leaves any other symbol alone. -/
def wrapTerminal (b : Binarization) (s : Symbol) : Symbol × Binarization :=
  if b.grammar.isTerminal s then b.wrap s else (s, b)

/-- Replaces each terminal by its wrapper, from left to right. -/
def wrapAll (b : Binarization) : List Symbol → List Symbol × Binarization
  | [] => ([], b)
  | s :: rest =>
    let (s, b) := b.wrapTerminal s
    let (rest, b) := b.wrapAll rest
    (s :: rest, b)

/-- Replaces the leftmost pair by its helper until at most two symbols remain. The symbols are
`first` and those after it. -/
def collapse (b : Binarization) (first : Symbol) : List Symbol → List Symbol × Binarization
  | [] => ([first], b)
  | [second] => ([first, second], b)
  | second :: third :: rest =>
    let (s, b) := b.pair first second
    b.collapse s (third :: rest)

/-- Splits one rule. A rule with at most one symbol on the right is kept as it is. -/
def addSplit (b : Binarization) (rule : Rule) : Binarization :=
  match rule.rhs with
  | [] | [_] => b.emit rule
  | first :: second :: rest =>
    let (first, b) := b.wrapTerminal first
    let (rest, b) := b.wrapAll (second :: rest)
    let (rhs, b) := b.collapse first rest
    b.emit ⟨rule.lhs, rhs⟩

/-- Splits rules one after the other. -/
def addSplits (b : Binarization) (rules : List Rule) : Binarization := rules.foldl addSplit b

/-- Puts rules and events in the order in which they came. -/
def finish (b : Binarization) : Binarization :=
  { b with grammar := b.grammar.withRules b.grammar.rules.reverse, events := b.events.reverse }

end Binarization

/-- Splits the long rules of a grammar. -/
def Grammar.binarize (g : Grammar) (memo : BinaryMemo) (t : SymbolTable) : Binarization :=
  (Binarization.addSplits { memo, table := t, grammar := g.withRules [] } g.rules).finish

end Chomsky
