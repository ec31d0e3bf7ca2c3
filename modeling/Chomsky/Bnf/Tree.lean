import Chomsky.Bnf.Layout
import Chomsky.Description

/-!
# Parse trees and their values

The signs of grammar text are parsed by seven productions: a grammar is one or more
rules, a rule is a name, an arrow, alternatives and a stop, alternatives have bars
between them, and an alternative is one or more names. Every tree over these
productions is a parse of its leaves. A tree is evaluated from its leaves: the value
of a production is put together from the values of its parts, and is no value if the
parts do not fit.
-/

namespace Chomsky.Bnf

/-- What a part of a parse stands for. -/
inductive Value where
  | name (text : String)
  | rules (rules : List RuleDescription)
  | alternatives (alternatives : List (List String))
  | names (names : List String)
  | nothing
deriving DecidableEq

/-- One rule for each alternative. -/
def rulesOf (lhs : String) (alternatives : List (List String)) : List RuleDescription :=
  alternatives.map fun names => ⟨lhs, " ".intercalate names⟩

/-- A rule given by names, as it is shown in messages. -/
def ruleText (rule : RuleDescription) : String :=
  "RuleDescription \x7b lhs: " ++ Text.quote rule.lhs ++ ", rhs: " ++ Text.quote rule.rhs ++ " \x7d"

namespace Value

/-- The value as it is shown in messages. -/
def text : Value → String
  | .name text => "Ident(" ++ Text.quote text ++ ")"
  | .rules found => "Rules([" ++ ", ".intercalate (found.map ruleText) ++ "])"
  | .alternatives found => "Rhs([" ++ ", ".intercalate (found.map Text.quoteList) ++ "])"
  | .names found => "Alt(" ++ Text.quoteList found ++ ")"
  | .nothing => "None"

/-- The value of a sign with the given number. Only names have one, and it is the text of the lexeme
that has this number. -/
def ofSign (lexemes : Array Lexeme) (kind : Terminal) (number : UInt32) : Value :=
  match kind, (lexemes[number.toNat]?).map Lexeme.token with
  | .name, some (.ident text) => name text
  | _, _ => nothing

/-- The value of a production from the values of its parts. Productions have the numbers two to
eight, and no production looks at more than three of its parts. -/
def combine (production : Nat) (parts : List Value) : Value :=
  match production, parts[0]?.getD .nothing, parts[1]?.getD .nothing, parts[2]?.getD .nothing with
  | 2, .rules before, .rules last, _ => .rules (before ++ last)
  | 3, .rules first, _, _ => .rules first
  | 4, .name lhs, _, .alternatives found => .rules (rulesOf lhs found)
  | 5, .alternatives before, _, .names last => .alternatives (before ++ [last])
  | 6, .names first, _, _ => .alternatives [first]
  | 7, .names before, .name last, _ => .names (before ++ [last])
  | 8, .name first, _, _ => .names [first]
  | _, _, _, _ => .nothing

end Value

open Value (combine)

/-- What productions are for. -/
inductive Category where
  | grammar
  | rule
  | alternatives
  | alternative
deriving DecidableEq

/-- A parse by the productions for a category, with a label at each leaf. -/
inductive Tree (α : Type) : Category → Type where
  | nextRule (before : Tree α .grammar) (last : Tree α .rule) : Tree α .grammar
  | firstRule (first : Tree α .rule) : Tree α .grammar
  | rule (lhs arrow : α) (right : Tree α .alternatives) (stop : α) : Tree α .rule
  | nextAlternative (before : Tree α .alternatives) (bar : α) (last : Tree α .alternative) :
    Tree α .alternatives
  | firstAlternative (first : Tree α .alternative) : Tree α .alternatives
  | nextName (before : Tree α .alternative) (last : α) : Tree α .alternative
  | firstName (first : α) : Tree α .alternative

/-- The value of a parse, given the values of its leaves. -/
def Tree.value {α : Type} (leaf : Terminal → α → Value) {category : Category} :
    Tree α category → Value
  | nextRule before last => combine 2 [before.value leaf, last.value leaf]
  | firstRule first => combine 3 [first.value leaf]
  | rule lhs arrow right stop =>
    combine 4 [leaf .name lhs, leaf .arrow arrow, right.value leaf, leaf .stop stop]
  | nextAlternative before bar last =>
    combine 5 [before.value leaf, leaf .bar bar, last.value leaf]
  | firstAlternative first => combine 6 [first.value leaf]
  | nextName before last => combine 7 [before.value leaf, leaf .name last]
  | firstName first => combine 8 [leaf .name first]

end Chomsky.Bnf
