import Chomsky.Analysis.Report
import Chomsky.Bnf.Parser

/-!
# References, answers and failures

The vocabulary of commands to a workspace: how symbols, rules and grammars are
given, what a command answers and how it can fail.
-/

namespace Chomsky

/-- A symbol given by its name, which is interned, or by its number. -/
inductive SymbolRef where
  | name (text : String)
  | number (s : Symbol)

namespace SymbolRef

/-- The symbol that is meant. -/
def resolve (t : SymbolTable) : SymbolRef → Symbol × SymbolTable
  | name text => t.intern text
  | number s => (s, t)

/-- The symbols that are meant, from left to right. -/
def resolveAll (t : SymbolTable) : List SymbolRef → List Symbol × SymbolTable
  | [] => ([], t)
  | ref :: rest =>
    let (s, t) := ref.resolve t
    let (ss, t) := resolveAll t rest
    (s :: ss, t)

/-- The sequences that are meant, from left to right. -/
def resolveLists (t : SymbolTable) : List (List SymbolRef) → List (List Symbol) × SymbolTable
  | [] => ([], t)
  | refs :: rest =>
    let (ss, t) := resolveAll t refs
    let (lists, t) := resolveLists t rest
    (ss :: lists, t)

end SymbolRef

/-- The alternatives of a left side. -/
structure RuleRef where
  lhs : SymbolRef
  alternatives : List (List SymbolRef)

namespace RuleRef

/-- One rule for each alternative. The left side is resolved first. -/
def resolve (t : SymbolTable) (ref : RuleRef) : List Rule × SymbolTable :=
  let (lhs, t) := ref.lhs.resolve t
  let (alternatives, t) := SymbolRef.resolveLists t ref.alternatives
  (alternatives.map (Rule.mk lhs), t)

/-- The rules that are meant, from left to right. -/
def resolveAll (t : SymbolTable) : List RuleRef → List Rule × SymbolTable
  | [] => ([], t)
  | ref :: rest =>
    let (rules, t) := ref.resolve t
    let (others, t) := resolveAll t rest
    (rules ++ others, t)

end RuleRef

/-- How a command can fail. -/
inductive Failure where
  /-- A text does not yield a grammar. -/
  | load (e : Bnf.LoadError)
  /-- A grammar or its description is not valid. -/
  | grammar (e : GrammarError)
  /-- A symbol of a grammar is beyond its table. -/
  | range (e : RangeError)
  /-- The workspace has no such grammar. -/
  | noGrammar (index : Nat)
  /-- The workspace has no such memo. -/
  | noMemo (index : Nat)
deriving DecidableEq

/-- A failed transformation as the failure of a command. -/
def TransformError.toFailure : TransformError → Failure
  | invalid e => .grammar e
  | range e => .range e

/-- A grammar given as a text or by its description. -/
inductive GrammarSource where
  | text (bnf : String)
  | description (d : Description)

/-- Builds the grammar that is meant. -/
def GrammarSource.build : GrammarSource → Journaled Failure (Grammar × SymbolTable)
  | text bnf => (Bnf.load bnf).mapError .load
  | description d => d.journalGrammar.mapError .grammar

/-- What a command answers. -/
inductive Answer where
  /-- A new grammar and its place. -/
  | created (index : Nat) (grammar : NamedGrammar)
  /-- The place of a new memo. -/
  | memo (index : Nat)
  | symbol (s : Symbol)
  | symbols (ss : List Symbol)
  /-- The symbol of a name in the table, among the declared symbols, and whether it is taken. -/
  | found (known declared : Option Symbol) (taken : Bool)
  | symbolInfo (s : Symbol) (name : String) (isTerminal isNonterminal : Bool)
  /-- A fresh symbol, its name and the number of names in the table. -/
  | fresh (s : Symbol) (name : String) (size : Nat)
  | rules (rules : List NamedRule)
  | grammar (grammar : NamedGrammar)
  | valid
  | overview (overview : Overview)
  | analysis (report : AnalysisReport)
  | usefulness (report : UsefulnessReport)
  | occurrences (found : List (Symbol × Occurrences))
  | set (set : SymbolSet)
  | normalized (report : NormalizedReport)
  /-- Names of wrappers and helpers, and how many there are of each. -/
  | introduced (wrappers helpers : List (Option String)) (numWrappers numHelpers : Nat)

end Chomsky
