import Chomsky.Grammar.Validity
import Chomsky.Journal
import Chomsky.Text.NameSet

/-!
# Grammars described by names

A description gives the start symbol, the declared names and the rules by names.
The right side of a rule is a text whose words are the names, and the single word
`ε` stands for none. A description that passes all checks determines a grammar
with a symbol table of its own, in which the start symbol comes first, then the
nonterminals and then the terminals, each in ascending order of names.
-/

namespace Chomsky

/-- A rule given by names. -/
structure RuleDescription where
  lhs : String
  rhs : String
deriving DecidableEq

/-- A grammar given by names. -/
structure Description where
  start : String
  nonterminals : NameSet := {}
  terminals : NameSet := {}
  rules : List RuleDescription := []
deriving DecidableEq

namespace Description

/-- Tests for a declared name. -/
def declares (d : Description) (name : String) : Bool :=
  d.nonterminals.contains name || d.terminals.contains name

/-- What is wrong with the declarations. -/
def declarationFault? (d : Description) : Option GrammarError :=
  if d.declares epsilonMark then some .reservedEpsilon
  else
    match d.nonterminals.firstCommon? d.terminals with
    | some name => some (.conflictingDeclaration name)
    | none =>
      if d.nonterminals.contains d.start then none else some (.undeclaredStart d.start)

/-- The names on the right side of a rule for `lhs`, or what is wrong with them. -/
def readRhs (d : Description) (lhs : String) : List String → Except GrammarError (List String)
  | [] => .error (.emptyRhs lhs)
  | names =>
    if names = [epsilonMark] then .ok []
    else if names.contains epsilonMark then .error (.misplacedEpsilon lhs)
    else
      match names.find? fun name => !d.declares name with
      | some name => .error (.malformedReference lhs name)
      | none => .ok names

/-- A rule with separate names, or what is wrong with it: its left side comes before its right
side. -/
def readRule (d : Description) (rule : RuleDescription) : Except GrammarError NamedRule :=
  if d.terminals.contains rule.lhs then .error (.terminalOnLhs rule.lhs)
  else if d.nonterminals.contains rule.lhs then
    (d.readRhs rule.lhs (Text.words rule.rhs)).map (NamedRule.mk rule.lhs)
  else .error (.malformedReference rule.lhs rule.lhs)

/-- All rules with separate names, or what is wrong with the first bad one. -/
def readRules (d : Description) : List RuleDescription → Except GrammarError (List NamedRule)
  | [] => .ok []
  | rule :: rest => do
    let first ← d.readRule rule
    let others ← d.readRules rest
    return first :: others

/-- The names in the order of their symbols: the start symbol comes first. -/
def nameOrder (d : Description) : List String :=
  d.start :: (d.nonterminals.names ++ d.terminals.names)

/-- The symbol table of a description. -/
def table (d : Description) : SymbolTable := d.nameOrder.foldl SymbolTable.add .empty

/-- The grammar with the given rules over the symbols of a description. -/
def grammarWith (d : Description) (rules : List NamedRule) : Grammar :=
  let t := d.table
  let symbolOf := fun name => (t.intern name).1
  { start := symbolOf d.start
    nonterminals := SymbolSet.ofList (d.nonterminals.names.map symbolOf)
    terminals := SymbolSet.ofList (d.terminals.names.map symbolOf)
    rules := rules.map fun rule => ⟨symbolOf rule.lhs, rule.rhs.map symbolOf⟩ }

/-- Builds the grammar of a description. The declarations are checked before the rules, and the
result once more as a grammar. -/
def toGrammar (d : Description) : Except GrammarError (Grammar × SymbolTable) :=
  match d.declarationFault? with
  | some e => .error e
  | none => do
    let rules ← d.readRules d.rules
    let g := d.grammarWith rules
    let t := d.table
    g.validate t
    return (g, t)

/-- Builds the grammar of a description and records its size. -/
def journalGrammar (d : Description) : Journaled GrammarError (Grammar × SymbolTable) := do
  let (g, t) ← Journaled.ofExcept d.toGrammar
  Journaled.record
    (.described d.start d.nonterminals.size d.terminals.size g.rules.length)
  return (g, t)

end Description

end Chomsky
