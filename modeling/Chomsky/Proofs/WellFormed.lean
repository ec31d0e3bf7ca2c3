import Chomsky.Grammar.Validity
import Chomsky.Proofs.FreshSymbols

/-!
# Well-formed grammars

A grammar is well-formed when its declarations fit its rules. A valid grammar is
one that is well-formed and does not declare `ε`.
-/

namespace Chomsky.Grammar

/-- The declarations are disjoint and fit the start symbol and the rules. -/
structure WellFormed (g : Grammar) : Prop where
  disjoint : ∀ s ∈ g.terminals, s ∉ g.nonterminals
  start : g.start ∈ g.nonterminals
  lhs : ∀ rule ∈ g.rules, rule.lhs ∈ g.nonterminals
  rhs : ∀ rule ∈ g.rules, ∀ s ∈ rule.rhs, s ∈ g.terminals ∨ s ∈ g.nonterminals

variable {g : Grammar} {t : SymbolTable} {s : Symbol}

/-- The declared symbols are the terminals and the nonterminals. -/
theorem isDeclared_iff : g.isDeclared s = true ↔ s ∈ g.terminals ∨ s ∈ g.nonterminals := by
  rw [isDeclared, Bool.or_eq_true]
  rfl

/-- A symbol that is not declared is neither a terminal nor a nonterminal. -/
theorem isDeclared_eq_false_iff :
    g.isDeclared s = false ↔ s ∉ g.terminals ∧ s ∉ g.nonterminals := by
  rw [← Bool.not_eq_true, isDeclared_iff, not_or]

/-- No fault is found in a rule exactly if it mentions declared symbols, with a nonterminal on
the left. -/
theorem ruleFault?_eq_none_iff {rule : Rule} :
    g.ruleFault? t rule = none ↔
      rule.lhs ∈ g.nonterminals ∧ ∀ s ∈ rule.rhs, s ∈ g.terminals ∨ s ∈ g.nonterminals := by
  unfold ruleFault?
  by_cases hlhs : g.isNonterminal rule.lhs = true
  · have hmem : rule.lhs ∈ g.nonterminals := hlhs
    simp [hlhs, hmem, isDeclared_iff]
  · have hmem : rule.lhs ∉ g.nonterminals := hlhs
    rw [if_neg hlhs]
    split <;> simp [hmem]

/-- No fault is found in the declarations exactly if they are disjoint, do not contain `ε` and
have the start symbol as a nonterminal. -/
theorem declarationFault?_eq_none_iff :
    g.declarationFault? t = none ↔ (∀ s ∈ g.terminals, s ∉ g.nonterminals) ∧
      g.isTaken t epsilonMark = false ∧ g.start ∈ g.nonterminals := by
  unfold declarationFault?
  split
  · rename_i s hfind
    have hterminal : s ∈ g.terminals := SymbolSet.mem_toList.mp (List.mem_of_find?_eq_some hfind)
    have hnonterminal : s ∈ g.nonterminals := List.find?_some hfind
    constructor
    · rintro ⟨⟩
    · rintro ⟨hdisjoint, _⟩
      exact absurd hnonterminal (hdisjoint s hterminal)
  · rename_i hfind
    have hdisjoint : ∀ s ∈ g.terminals, s ∉ g.nonterminals := by
      intro s hs
      exact List.find?_eq_none.mp hfind s (SymbolSet.mem_toList.mpr hs)
    by_cases htaken : g.isTaken t epsilonMark = true
    · simp [htaken]
    · by_cases hstart : g.isNonterminal g.start = true
      · have hmem : g.start ∈ g.nonterminals := hstart
        simpa [htaken, hstart, hmem] using hdisjoint
      · have hmem : g.start ∉ g.nonterminals := hstart
        simp [htaken, hstart, hmem]

/-- A grammar without faults is well-formed and does not declare `ε`. -/
theorem fault?_eq_none_iff :
    g.fault? t = none ↔ g.WellFormed ∧ g.isTaken t epsilonMark = false := by
  rw [fault?, Option.or_eq_none_iff, declarationFault?_eq_none_iff, List.findSome?_eq_none_iff]
  simp only [ruleFault?_eq_none_iff]
  constructor
  · rintro ⟨⟨hdisjoint, htaken, hstart⟩, hrules⟩
    exact ⟨⟨hdisjoint, hstart, fun rule hrule => (hrules rule hrule).1,
      fun rule hrule => (hrules rule hrule).2⟩, htaken⟩
  · rintro ⟨hwell, htaken⟩
    exact ⟨⟨hwell.disjoint, htaken, hwell.start⟩,
      fun rule hrule => ⟨hwell.lhs rule hrule, hwell.rhs rule hrule⟩⟩

/-- A grammar is valid exactly if it is well-formed and no declared symbol is named `ε`. -/
theorem validate_eq_ok_iff :
    g.validate t = .ok () ↔ g.WellFormed ∧ g.isTaken t epsilonMark = false := by
  rw [← fault?_eq_none_iff, validate]
  cases g.fault? t <;> simp

namespace WellFormed

/-- No nonterminal is a terminal. -/
theorem not_mem_terminals (h : g.WellFormed) (hs : s ∈ g.nonterminals) : s ∉ g.terminals :=
  fun hterminal => h.disjoint s hterminal hs

/-- A symbol that is not declared occurs in no rule. -/
theorem not_mem_rule (h : g.WellFormed) (hs : g.isDeclared s = false) {rule : Rule}
    (hrule : rule ∈ g.rules) : rule.lhs ≠ s ∧ s ∉ rule.rhs := by
  obtain ⟨hterminal, hnonterminal⟩ := isDeclared_eq_false_iff.mp hs
  constructor
  · rintro rfl
    exact hnonterminal (h.lhs rule hrule)
  · intro hmem
    rcases h.rhs rule hrule s hmem with hs | hs
    · exact hterminal hs
    · exact hnonterminal hs

end WellFormed

end Chomsky.Grammar
