import Chomsky.Proofs.EpsilonFree

/-!
# What the elimination of epsilon rules leaves to each symbol

Apart from the language, the elimination of epsilon rules is known symbol by symbol.
A nonterminal that is kept derives its former words except the empty one, and a
nonterminal goes if it has no other word. The start symbol is replaced if it derives
the empty word, and the new one has the only epsilon rule. No rule is listed twice.
-/

namespace Chomsky.Grammar

variable {g : Grammar} {t : SymbolTable} {naming : Naming} {s : Symbol}

/-- The second grammar is the first without its epsilon rules. -/
structure EpsilonFreeForm (g h : Grammar) : Prop where
  words : ∀ s ∈ g.nonterminals, h.isDeclared s = true → h.wordsOf s = g.wordsOf s \ {[]}
  dropped : ∀ s ∈ g.nonterminals, h.isDeclared s = false ↔ g.wordsOf s ⊆ {[]} ∧ s ≠ h.start
  newStart : Derives g.rules [g.start] [] → g.isDeclared h.start = false ∧
    (∀ rule ∈ h.rules, h.start ∉ rule.rhs) ∧
      ∀ rule, rule ∈ h.rules ∧ rule.rhs = [] ↔ rule = ⟨h.start, []⟩
  oldStart : ¬Derives g.rules [g.start] [] → h.start = g.start ∧ ∀ rule ∈ h.rules, rule.rhs ≠ []
  language : h.language = g.language
  nodup : h.rules.Nodup

private theorem start_mem_nullableSymbols_iff :
    g.start ∈ g.nullableSymbols ↔ Derives g.rules [g.start] [] :=
  mem_nullableSymbols_iff_derives

/-! ### Words and nonterminals -/

/-- The expansion takes the empty word from every declared symbol, whether or not a new start
symbol brings it back. -/
theorem wordsOf_expandEpsilon (hg : g.WellFormed) (hcovered : g.CoveredBy t)
    (hsize : (g.expandEpsilon t naming).2.size ≤ UInt32.size) (hs : g.isDeclared s = true) :
    (g.expandEpsilon t naming).1.wordsOf s = g.wordsOf s \ {[]} := by
  by_cases hstart : g.start ∈ g.nullableSymbols
  · rw [expandEpsilon_of_nullable hstart] at hsize ⊢
    have hnew := not_isDeclared_newStart hcovered hsize
    have hne : s ≠ (g.newStart t naming).1 := by
      rintro rfl
      rw [hs] at hnew
      cases hnew
    rw [wordsOf_prependStart hg.expandNullable hnew, if_neg hne, wordsOf_expandNullable]
  · rw [expandEpsilon_of_not_nullable hstart, wordsOf_expandNullable]

private theorem mem_nonterminals_expandEpsilon (hs : s ∈ g.nonterminals) :
    s ∈ (g.expandEpsilon t naming).1.nonterminals := by
  by_cases hstart : g.start ∈ g.nullableSymbols
  · rw [expandEpsilon_of_nullable hstart]
    exact mem_nonterminals_prependStart.mpr (Or.inr hs)
  · rwa [expandEpsilon_of_not_nullable hstart]

/-- A nonterminal is kept exactly if it is the start symbol or has a word that is not empty. -/
theorem mem_nonterminals_eliminateEpsilon_iff (hg : g.WellFormed) (hcovered : g.CoveredBy t)
    (hsize : (g.eliminateEpsilon t naming).2.size ≤ UInt32.size) (hs : s ∈ g.nonterminals) :
    s ∈ (g.eliminateEpsilon t naming).1.nonterminals ↔
      s = (g.eliminateEpsilon t naming).1.start ∨ (g.wordsOf s \ {[]}).Nonempty := by
  have hdeclared : g.isDeclared s = true := isDeclared_iff.mpr (Or.inr hs)
  have hkept : s ∈ (g.expandEpsilon t naming).1.nonterminals := mem_nonterminals_expandEpsilon hs
  rw [← wordsOf_expandEpsilon hg hcovered hsize hdeclared]
  refine mem_nonterminals_removeUnproductive.trans (or_congr_right ?_)
  exact and_iff_right hkept

/-! ### Epsilon rules -/

/-- A nullable start symbol gives way to a new one, which has the only epsilon rule. -/
theorem eliminateEpsilon_of_nullable (hstart : g.start ∈ g.nullableSymbols) (t : SymbolTable)
    (naming : Naming) :
    (g.eliminateEpsilon t naming).1.start = (g.newStart t naming).1 ∧
      ⟨(g.newStart t naming).1, []⟩ ∈ (g.eliminateEpsilon t naming).1.rules := by
  have hexpanded := expandEpsilon_of_nullable hstart t naming
  have hform : (g.eliminateEpsilon t naming).1 =
      (g.expandNullable.prependStart (g.newStart t naming).1).removeUnproductive := by
    rw [eliminateEpsilon, hexpanded]
  rw [hform]
  refine ⟨rfl, ?_⟩
  -- The empty right side has the empty reading, so this rule is productive.
  exact mem_rules_removeUnproductive_of_reading (w := [])
    (mem_rules_prependStart.mpr (Or.inr (Or.inr rfl))) rfl

private theorem eliminateEpsilon_of_not_nullable (hstart : g.start ∉ g.nullableSymbols) :
    (g.eliminateEpsilon t naming).1.start = g.start ∧
      ∀ rule ∈ (g.eliminateEpsilon t naming).1.rules, rule.rhs ≠ [] := by
  have hform : (g.eliminateEpsilon t naming).1 = g.expandNullable.removeUnproductive := by
    rw [eliminateEpsilon, expandEpsilon_of_not_nullable hstart]
  rw [hform]
  refine ⟨rfl, fun rule hrule => ?_⟩
  obtain ⟨_, _, _, hne⟩ :=
    mem_rules_expandNullable.mp (mem_rules_removeUnproductive.mp hrule).1
  exact hne

/-! ### Repeated rules -/

/-- The rules of a new start symbol are unlike all others, and unlike each other. -/
theorem nodup_rules_prependStart (hg : g.WellFormed) (hs : g.isDeclared s = false)
    (hnodup : g.rules.Nodup) : (g.prependStart s).rules.Nodup := by
  have hother : ∀ rule ∈ g.rules, rule.lhs ≠ s := fun rule hrule =>
    (hg.not_mem_rule hs hrule).1
  have hrules : (g.prependStart s).rules = g.rules ++ [⟨s, [g.start]⟩, ⟨s, []⟩] := by
    simp [prependStart, addRule, setStart, addNonterminal]
  rw [hrules, List.nodup_append]
  refine ⟨hnodup, by simp, ?_⟩
  rintro rule hrule _ hnew rfl
  have hlhs : rule.lhs = s := by
    rcases List.mem_pair.mp hnew with rfl | rfl
    · rfl
    · rfl
  exact hother rule hrule hlhs

private theorem nodup_rules_expandEpsilon (hg : g.WellFormed) (hcovered : g.CoveredBy t)
    (hsize : (g.expandEpsilon t naming).2.size ≤ UInt32.size) :
    (g.expandEpsilon t naming).1.rules.Nodup := by
  have hexpanded : g.expandNullable.rules.Nodup := nodup_distinctRules _
  by_cases hstart : g.start ∈ g.nullableSymbols
  · rw [expandEpsilon_of_nullable hstart] at hsize ⊢
    have hnew := not_isDeclared_newStart hcovered hsize
    exact nodup_rules_prependStart hg.expandNullable hnew hexpanded
  · rwa [expandEpsilon_of_not_nullable hstart]

/-! ### The whole elimination -/

/-- Elimination of epsilon rules from a covered, valid grammar takes the empty word from every
nonterminal, drops those that have no other word, and gives it to a new start symbol if it was in
the language. -/
theorem epsilonFreeForm_eliminateEpsilon (hcovered : g.CoveredBy t)
    (hvalid : g.validate t = .ok ()) (naming : Naming)
    (hsize : (g.eliminateEpsilon t naming).2.size ≤ UInt32.size) :
    g.EpsilonFreeForm (g.eliminateEpsilon t naming).1 := by
  have hg := (validate_eq_ok_iff.mp hvalid).1
  refine ⟨fun s hs _ => ?_, fun s hs => ?_, fun hempty => ?_, fun hempty => ?_, ?_, ?_⟩
  · have hdeclared : g.isDeclared s = true := isDeclared_iff.mpr (Or.inr hs)
    rw [eliminateEpsilon, wordsOf_removeUnproductive]
    exact wordsOf_expandEpsilon hg hcovered hsize hdeclared
  · have hterminal : s ∉ (g.eliminateEpsilon t naming).1.terminals := fun hmem =>
      hg.disjoint s (mem_terminals_eliminateEpsilon.mp hmem) hs
    rw [isDeclared_eq_false_iff, and_iff_right hterminal,
      mem_nonterminals_eliminateEpsilon_iff hg hcovered hsize hs, not_or,
      Set.not_nonempty_iff_eq_empty, Set.sdiff_eq_empty, and_comm]
  · have hstart := start_mem_nullableSymbols_iff.mpr hempty
    obtain ⟨hnew, hrule⟩ := eliminateEpsilon_of_nullable hstart t naming
    have honly := (onlyStartEmpty_expandEpsilon hg hcovered hsize).removeUnproductive
    rw [← hnew] at hrule
    refine ⟨?_, (honly _ hrule rfl).2, fun rule => ⟨?_, ?_⟩⟩
    · rw [hnew]
      rw [eliminateEpsilon, expandEpsilon_of_nullable hstart] at hsize
      exact not_isDeclared_newStart hcovered hsize
    · rintro ⟨hmem, hrhs⟩
      obtain ⟨lhs, rhs⟩ := rule
      obtain rfl : rhs = [] := hrhs
      rw [Rule.mk.injEq]
      exact ⟨(honly _ hmem rfl).1, rfl⟩
    · rintro rfl
      exact ⟨hrule, rfl⟩
  · exact eliminateEpsilon_of_not_nullable fun hstart =>
      hempty (start_mem_nullableSymbols_iff.mp hstart)
  · rw [eliminateEpsilon, language_removeUnproductive]
    exact language_expandEpsilon hg hcovered hsize
  · exact (nodup_rules_expandEpsilon hg hcovered hsize).filter _

/-- A grammar whose nonterminals all derive the empty word, one of them nothing else. -/
def vanishing : Grammar where
  start := ⟨0⟩
  nonterminals := .ofList [⟨0⟩, ⟨1⟩, ⟨2⟩]
  terminals := .ofList [⟨3⟩]
  rules := [⟨⟨0⟩, [⟨1⟩, ⟨0⟩, ⟨2⟩]⟩, ⟨⟨0⟩, [⟨2⟩]⟩, ⟨⟨1⟩, [⟨3⟩]⟩, ⟨⟨1⟩, []⟩, ⟨⟨2⟩, [⟨2⟩]⟩, ⟨⟨2⟩, []⟩]

def vanishingTable : SymbolTable := (SymbolTable.empty.internAll ["S", "A", "B", "a"]).2

/-- The second nonterminal keeps its word, and the third goes. -/
theorem epsilonFreeForm_vanishing :
    vanishing.EpsilonFreeForm (vanishing.eliminateEpsilon vanishingTable {}).1 ∧
      (vanishing.eliminateEpsilon vanishingTable {}).1.nonterminals.toList =
        [⟨0⟩, ⟨1⟩, ⟨4⟩] := by
  have hsize : (vanishing.eliminateEpsilon vanishingTable {}).2.size = 5 := by decide +kernel
  refine ⟨epsilonFreeForm_eliminateEpsilon ?_ ?_ {} (hsize.trans_le (by decide)), ?_⟩
  · decide +kernel
  · decide +kernel
  · decide +kernel

end Chomsky.Grammar
