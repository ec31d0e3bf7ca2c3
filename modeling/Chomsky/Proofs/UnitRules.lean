import Chomsky.Proofs.ComputedStages

/-!
# The rules left by the elimination of unit rules

The elimination lists each nonterminal once, and each of its inherited rules once, so
no rule is repeated. Together with the account of which rules are inherited and of
the words that symbols keep, this says exactly what the elimination yields.
-/

namespace Chomsky.Grammar

variable {g h : Grammar} {t : SymbolTable} {rule : Rule}

private theorem lhs_of_mem_inheritedRules {lhs : Symbol} {derived : List Symbol}
    (hrule : rule ∈ g.inheritedRules lhs derived) : rule.lhs = lhs := by
  rw [inheritedRules, distinctRules_eq_eraseDups, List.mem_eraseDups] at hrule
  obtain ⟨_, _, rfl⟩ := List.mem_map.mp hrule
  rfl

/-- Whatever a relation says is derived, rules are inherited by the listed nonterminals, and none
is repeated if no nonterminal is. -/
theorem nodup_unitFreeRules {r : SymbolRelation} {lhss : List Symbol} {rules : List Rule}
    (hlhss : lhss.Nodup) (hresult : g.unitFreeRules r lhss = .ok rules) :
    (∀ rule ∈ rules, rule.lhs ∈ lhss) ∧ rules.Nodup := by
  induction lhss generalizing rules with
  | nil =>
    obtain rfl : [] = rules := Except.ok.inj hresult
    exact ⟨by simp, List.nodup_nil⟩
  | cons lhs rest ih =>
    simp only [unitFreeRules, bind_eq_ok_iff] at hresult
    obtain ⟨derived, _, others, hothers, hrules⟩ := hresult
    obtain rfl : g.inheritedRules lhs derived ++ others = rules := Except.ok.inj hrules
    obtain ⟨hnot, hrest⟩ := List.nodup_cons.mp hlhss
    obtain ⟨hlhs, hnodup⟩ := ih hrest hothers
    have hinherited : (g.inheritedRules lhs derived).Nodup := nodup_distinctRules _
    refine ⟨fun rule hrule => ?_, List.nodup_append.mpr ⟨hinherited, hnodup, ?_⟩⟩
    · rcases List.mem_append.mp hrule with hrule | hrule
      · rw [lhs_of_mem_inheritedRules hrule]
        exact List.mem_cons_self
      · exact List.mem_cons_of_mem lhs (hlhs rule hrule)
    · -- A rule of both parts would have `lhs` on its left, which is not listed again.
      rintro rule hrule _ hother rfl
      have hmem := hlhs rule hother
      rw [lhs_of_mem_inheritedRules hrule] at hmem
      exact hnot hmem

private theorem nodup_rules_eliminateUnits {size : Nat} (hresult : g.eliminateUnits size = .ok h) :
    h.rules.Nodup := by
  simp only [eliminateUnits, bind_eq_ok_iff] at hresult
  obtain ⟨r, _, rules, hrules, hh⟩ := hresult
  obtain rfl : g.withRules rules = h := Except.ok.inj hh
  exact (nodup_unitFreeRules g.nonterminals.ascending_toList.nodup hrules).2

/-- Elimination of unit rules from a covered, valid grammar succeeds. It keeps the start symbol
and the declared symbols, each nonterminal has exactly the rules that it inherits along unit rules,
no rule is a unit rule or is listed twice, and every symbol keeps its words. -/
theorem eliminateUnits_exact (hcovered : g.CoveredBy t) (hvalid : g.validate t = .ok ()) :
    ∃ h, g.eliminateUnits t.size = .ok h ∧ g.UnitFreeForm h ∧
      (∀ rule ∈ h.rules, h.isUnitRule rule = false) ∧ h.rules.Nodup ∧
      ∀ s, h.wordsOf s = g.wordsOf s := by
  have hg := (validate_eq_ok_iff.mp hvalid).1
  obtain ⟨h, hresult, hform⟩ := eliminateUnits_eq_ok hcovered
  refine ⟨h, hresult, hform, fun rule hrule => ?_, nodup_rules_eliminateUnits hresult, fun s => ?_⟩
  · rw [← Bool.not_eq_true, isUnitRule_iff]
    exact hform.not_isUnit hrule
  · rw [hform.wordsOf_eq hg]

/-- Two nonterminals derive each other by unit rules, and a third derives itself and both. -/
def circular : Grammar where
  start := ⟨0⟩
  nonterminals := .ofList [⟨0⟩, ⟨1⟩, ⟨2⟩]
  terminals := .ofList [⟨3⟩]
  rules := [⟨⟨0⟩, [⟨0⟩]⟩, ⟨⟨0⟩, [⟨1⟩]⟩, ⟨⟨1⟩, [⟨2⟩]⟩, ⟨⟨2⟩, [⟨1⟩]⟩, ⟨⟨1⟩, []⟩, ⟨⟨2⟩, [⟨3⟩]⟩,
    ⟨⟨2⟩, [⟨3⟩]⟩]

def circularTable : SymbolTable := (SymbolTable.empty.internAll ["S", "A", "B", "b"]).2

/-- All three nonterminals inherit the epsilon rule and, once, the repeated rule. -/
theorem eliminateUnits_circular_exact :
    ∃ h, circular.eliminateUnits circularTable.size = .ok h ∧
      h.rules = [⟨⟨0⟩, []⟩, ⟨⟨0⟩, [⟨3⟩]⟩, ⟨⟨1⟩, []⟩, ⟨⟨1⟩, [⟨3⟩]⟩, ⟨⟨2⟩, []⟩, ⟨⟨2⟩, [⟨3⟩]⟩] ∧
      h.wordsOf ⟨1⟩ = circular.wordsOf ⟨1⟩ := by
  obtain ⟨h, hresult, _, _, _, hwords⟩ := eliminateUnits_exact (g := circular)
    (t := circularTable) (by decide +kernel) (by decide +kernel)
  have hrules : (circular.eliminateUnits circularTable.size).toOption.map Grammar.rules =
      some [⟨⟨0⟩, []⟩, ⟨⟨0⟩, [⟨3⟩]⟩, ⟨⟨1⟩, []⟩, ⟨⟨1⟩, [⟨3⟩]⟩, ⟨⟨2⟩, []⟩, ⟨⟨2⟩, [⟨3⟩]⟩] := by
    decide +kernel
  rw [hresult] at hrules
  exact ⟨h, hresult, Option.some.inj hrules, hwords ⟨1⟩⟩

end Chomsky.Grammar
