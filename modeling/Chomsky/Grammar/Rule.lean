import Chomsky.Symbol.Table
import Chomsky.Text.Blank

/-!
# Grammar rules

A rule replaces one symbol by a sequence of symbols. A rule with names in place
of symbols can be read without a symbol table, and is what gets printed: the
names of the right side stand after an arrow, and `ε` stands for none.
-/

namespace Chomsky

/-- The marker that stands for the empty right side. It is no name of a symbol. -/
def epsilonMark : String := "ε"

/-- A rule that replaces `lhs` by the symbols `rhs`. -/
structure Rule where
  lhs : Symbol
  rhs : List Symbol
deriving DecidableEq

/-- A rule with names in place of symbols. -/
structure NamedRule where
  lhs : String
  rhs : List String
deriving DecidableEq

namespace NamedRule

/-- Reads the right side as words, leaving out every `ε`. -/
def ofText (lhs rhs : String) : NamedRule :=
  { lhs, rhs := (Text.words rhs).filter (· != epsilonMark) }

/-- The names of the right side, or `ε` if there are none. -/
def rhsText (rule : NamedRule) : String :=
  if rule.rhs.isEmpty then epsilonMark else " ".intercalate rule.rhs

/-- A rule on one line, such as `A → B C`. -/
def text (rule : NamedRule) : String := rule.lhs ++ " → " ++ rule.rhsText

/-- The names of a rule from left to right. Rules are ordered by this list. -/
def names (rule : NamedRule) : List String := rule.lhs :: rule.rhs

/-- The order of rules: by the left name, then by the right names from left to right. -/
def le (r₁ r₂ : NamedRule) : Bool := r₁.names.le r₂.names

/-- The positions of the rules in ascending order of the rules. Equal rules keep their order. -/
def sortedPositions (rules : List NamedRule) : List Nat :=
  (rules.zipIdx.mergeSort fun a b => a.1.le b.1).map Prod.snd

end NamedRule

namespace Rule

/-- Tests for an empty right side. -/
def isEpsilon (rule : Rule) : Bool := rule.rhs.isEmpty

/-- The rule with the names that a table gives to its symbols. -/
def named (t : SymbolTable) (rule : Rule) : NamedRule :=
  { lhs := t.nameOf rule.lhs, rhs := rule.rhs.map t.nameOf }

/-- The order of rules by names. -/
def leByName (t : SymbolTable) (r₁ r₂ : Rule) : Bool := (r₁.named t).le (r₂.named t)

/-- The numbers of the symbols of a rule from left to right. -/
def numbers (rule : Rule) : List Nat := (rule.lhs :: rule.rhs).map Symbol.index

/-- A rule is determined by its numbers. -/
theorem numbers_inj {r₁ r₂ : Rule} : r₁.numbers = r₂.numbers ↔ r₁ = r₂ := by
  constructor
  · intro h
    have hsymbols := List.map_inj_right (fun _ _ => Symbol.index_injective) |>.1 h
    cases r₁
    cases r₂
    simp_all
  · exact congrArg numbers

/-- The order of rules by symbol numbers: first the left side, then the right side. -/
def leByNumber (r₁ r₂ : Rule) : Bool := r₁.numbers.le r₂.numbers

end Rule

end Chomsky
