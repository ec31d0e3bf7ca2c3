import Chomsky.Analysis.Usefulness
import Chomsky.Proofs.Invariance

/-!
# Useless rules and their removal

The usefulness report judges each rule by its right side and by what the start symbol
reaches through productive rules. The removal of useless symbols drops rules in two
passes, and declarations with them. Both come to the same rules, whether or not the
grammar is valid, because a right side of productive symbols makes its left side
productive. In what is left every symbol of a rule keeps its words, so a second report
finds nothing and a second removal changes nothing.
-/

namespace Chomsky

namespace Usefulness

variable {u : Usefulness} {rules : List Rule} {rule : Rule}

/-- The rules among the given ones that are reported as useless. -/
def reported (u : Usefulness) (rules : List Rule) : List Rule :=
  (u.uselessRules rules).map UselessRule.rule

/-- The left side is reachable and the right side consists of productive symbols. -/
def Uses (u : Usefulness) (rule : Rule) : Prop :=
  rule.lhs ∈ u.reachable ∧ ∀ s ∈ rule.rhs, s ∈ u.productive

private theorem isProductiveRule_iff {productive : SymbolSet} :
    isProductiveRule productive rule = true ↔ ∀ s ∈ rule.rhs, s ∈ productive :=
  List.all_eq_true

private theorem judge_useful_iff :
    ((u.judge rule).unreachable || (u.judge rule).unproductive) = false ↔ u.Uses rule := by
  rw [Bool.or_eq_false_iff, judge, Bool.not_eq_false', Bool.not_eq_false', isProductiveRule_iff]
  rfl

private theorem mem_reported_iff : rule ∈ u.reported rules ↔ rule ∈ rules ∧ ¬u.Uses rule := by
  simp only [reported, uselessRules, List.mem_map, List.mem_filter]
  constructor
  · rintro ⟨_, ⟨⟨rule, hrule, rfl⟩, huseless⟩, rfl⟩
    refine ⟨hrule, fun huses => ?_⟩
    have huseful : ((u.judge rule).unreachable || (u.judge rule).unproductive) = false :=
      judge_useful_iff.mpr huses
    rw [huseful] at huseless
    cases huseless
  · rintro ⟨hrule, hnot⟩
    refine ⟨u.judge rule, ⟨⟨rule, hrule, rfl⟩, ?_⟩, rfl⟩
    rw [← Bool.not_eq_false, judge_useful_iff]
    exact hnot

private theorem allUseful_iff : u.allUseful rules = true ↔ ∀ rule ∈ rules, u.Uses rule := by
  have hnone : u.allUseful rules = true ↔ u.reported rules = [] := by
    rw [allUseful, List.isEmpty_iff, reported, List.map_eq_nil_iff]
  rw [hnone, List.eq_nil_iff_forall_not_mem]
  simp only [mem_reported_iff, not_and, not_not]

end Usefulness

namespace Grammar

variable {g h k : Grammar} {t : SymbolTable} {u : Usefulness} {rule : Rule} {s : Symbol}

/-! ### Report and removal -/

/-- The left side of a rule need not be tested: it is productive if the right side is. -/
theorem rules_removeUnproductive (g : Grammar) : g.removeUnproductive.rules =
    g.rules.filter (Usefulness.isProductiveRule g.productiveSymbols) := by
  refine List.filter_congr fun rule hrule => ?_
  rw [Bool.eq_iff_iff, mentionsOnly, Bool.and_eq_true]
  refine and_iff_right_of_imp fun hrhs => ?_
  have hwords : ∀ s ∈ rule.rhs, (g.wordsOf s).Nonempty := fun s hs =>
    mem_productiveSymbols_iff.mp (List.all_eq_true.mp hrhs s hs)
  exact mem_productiveSymbols_iff.mpr
    ((formWords_nonempty_iff.mpr hwords).mono (g.fitsWords_wordsOf.rules rule hrule))

/-- The report and the removal find the same symbols reachable. -/
theorem exists_reachable_of_report (hcovered : g.CoveredBy t) :
    ∃ set, (∀ s, s ∈ set ↔ Reaches g.removeUnproductive.rules g.start s) ∧
      Usefulness.ofGrammar g t.size = .ok ⟨g.productiveSymbols, set⟩ ∧
      g.removeUseless t.size = .ok (g.removeUnproductive.restrictTo set) := by
  obtain ⟨set, hok, hmem⟩ := reachableSymbols_eq_ok hcovered.removeUnproductive
  refine ⟨set, hmem, ?_, by rw [removeUseless, removeUnreachable, hok]; rfl⟩
  have hok' : reachableFrom t.size
      (g.rules.filter (Usefulness.isProductiveRule g.productiveSymbols)) g.start = .ok set := by
    rw [← rules_removeUnproductive]
    exact hok
  rw [Usefulness.ofGrammar, hok']
  rfl

/-- The removal keeps the rules that the report calls useful, in their order. -/
theorem rules_removeUseless (hcovered : g.CoveredBy t)
    (hreport : Usefulness.ofGrammar g t.size = .ok u) (hresult : g.removeUseless t.size = .ok h) :
    h.rules = g.rules.filter fun rule => rule ∉ u.reported g.rules := by
  obtain ⟨set, _, hreport', hresult'⟩ := exists_reachable_of_report hcovered
  obtain rfl := Except.ok.inj (hreport'.symm.trans hreport)
  obtain rfl := Except.ok.inj (hresult'.symm.trans hresult)
  rw [restrictTo, rules_removeUnproductive, List.filter_filter]
  refine List.filter_congr fun rule hrule => ?_
  rw [Bool.eq_iff_iff, Bool.and_eq_true, Usefulness.isProductiveRule_iff, decide_eq_true_eq,
    Usefulness.mem_reported_iff, and_iff_right hrule, not_not]
  rfl

/-- All rules are useful exactly if the removal keeps them all. -/
theorem allUseful_iff_rules_eq (hcovered : g.CoveredBy t)
    (hreport : Usefulness.ofGrammar g t.size = .ok u) (hresult : g.removeUseless t.size = .ok h) :
    u.allUseful g.rules = true ↔ h.rules = g.rules := by
  rw [rules_removeUseless hcovered hreport hresult, List.filter_eq_self, Usefulness.allUseful_iff]
  refine forall₂_congr fun rule hrule => ?_
  rw [decide_eq_true_eq, Usefulness.mem_reported_iff, and_iff_right hrule, not_not]

/-! ### What is left after the removal -/

/-- Every symbol of a right side has a word, every declared symbol is reached, and so is every
left side. Only the start symbol may lack a word. -/
structure Trimmed (g : Grammar) : Prop where
  start : g.start ∈ g.nonterminals
  nonterminals : ∀ s ∈ g.nonterminals, s = g.start ∨ (g.wordsOf s).Nonempty
  declared : ∀ s, g.isDeclared s = true → Reaches g.rules g.start s
  lhs : ∀ rule ∈ g.rules, Reaches g.rules g.start rule.lhs
  rhs : ∀ rule ∈ g.rules, ∀ s ∈ rule.rhs, (g.wordsOf s).Nonempty

/-- Removed terminals are not missed: what is reached keeps its words. -/
theorem ReachablePart.trimmed (hpart : g.removeUnproductive.ReachablePart h) : h.Trimmed where
  start := by
    rw [hpart.start, hpart.nonterminals]
    exact ⟨mem_nonterminals_removeUnproductive.mpr (Or.inl rfl), Relation.ReflTransGen.refl⟩
  nonterminals s hs := by
    obtain ⟨hs, hreaches⟩ := (hpart.nonterminals s).mp hs
    rw [hpart.start, hpart.wordsOf_eq hreaches, wordsOf_removeUnproductive]
    exact (mem_nonterminals_removeUnproductive.mp hs).imp_right And.right
  declared s hs := by
    rw [hpart.reaches_iff]
    rcases isDeclared_iff.mp hs with hs | hs
    · exact ((hpart.terminals s).mp hs).2
    · exact ((hpart.nonterminals s).mp hs).2
  lhs rule hrule := by
    rw [hpart.reaches_iff]
    exact ((hpart.rules rule).mp hrule).2
  rhs rule hrule s hs := by
    rw [hpart.wordsOf_eq (hpart.reaches_rhs hrule hs), wordsOf_removeUnproductive]
    exact (mem_rules_removeUnproductive.mp ((hpart.rules rule).mp hrule).1).2.2 s hs

namespace Trimmed

private theorem rules_removeUnproductive_eq (hg : g.Trimmed) :
    g.removeUnproductive.rules = g.rules := by
  rw [rules_removeUnproductive, List.filter_eq_self]
  intro rule hrule
  rw [Usefulness.isProductiveRule_iff]
  exact fun s hs => mem_productiveSymbols_iff.mpr (hg.rhs rule hrule s hs)

/-- The report of a trimmed grammar is empty. -/
theorem allUseful (hg : g.Trimmed) (hcovered : g.CoveredBy t) :
    ∃ u, Usefulness.ofGrammar g t.size = .ok u ∧ u.allUseful g.rules = true := by
  obtain ⟨set, hmem, hreport, _⟩ := exists_reachable_of_report hcovered
  refine ⟨_, hreport, Usefulness.allUseful_iff.mpr fun rule hrule => ⟨?_, fun s hs => ?_⟩⟩
  · rw [hmem, hg.rules_removeUnproductive_eq]
    exact hg.lhs rule hrule
  · exact mem_productiveSymbols_iff.mpr (hg.rhs rule hrule s hs)

/-- The removal leaves a trimmed grammar as it is. -/
theorem sameContent (hg : g.Trimmed) (hpart : g.removeUnproductive.ReachablePart h) :
    g.SameContent h := by
  have hreached : ∀ s, g.isDeclared s = true → Reaches g.removeUnproductive.rules g.start s := by
    rw [hg.rules_removeUnproductive_eq]
    exact hg.declared
  refine ⟨hpart.start.symm, fun s => ?_, fun s => ?_, fun rule => ?_⟩
  · rw [hpart.nonterminals, mem_nonterminals_removeUnproductive]
    constructor
    · intro hs
      refine ⟨?_, hreached s (isDeclared_iff.mpr (Or.inr hs))⟩
      exact (hg.nonterminals s hs).imp_right fun hwords => ⟨hs, hwords⟩
    · rintro ⟨rfl | ⟨hs, _⟩, _⟩
      · exact hg.start
      · exact hs
  · rw [hpart.terminals]
    exact ⟨fun hs => ⟨hs, hreached s (isDeclared_iff.mpr (Or.inl hs))⟩, And.left⟩
  · rw [hpart.rules, hg.rules_removeUnproductive_eq]
    refine ⟨fun hrule => ⟨hrule, ?_⟩, And.left⟩
    exact hg.lhs rule hrule

end Trimmed

/-! ### Agreement -/

/-- Over a table that covers the grammar, the report and the removal succeed. The rules that the
removal keeps are those that the report does not list, in their order, and all rules are useful
exactly if all are kept. The report of the result is empty, and a second removal keeps its rules
and its declared symbols. -/
theorem removeUseless_matches_report (hcovered : g.CoveredBy t) :
    ∃ u h, Usefulness.ofGrammar g t.size = .ok u ∧ g.removeUseless t.size = .ok h ∧
      (h.rules = g.rules.filter fun rule => rule ∉ u.reported g.rules) ∧
      (u.allUseful g.rules = true ↔ h.rules = g.rules) ∧
      (∃ u', Usefulness.ofGrammar h t.size = .ok u' ∧ u'.allUseful h.rules = true) ∧
      ∃ k, h.removeUseless t.size = .ok k ∧ k.rules = h.rules ∧ h.SameContent k := by
  obtain ⟨_, _, hreport, _⟩ := exists_reachable_of_report hcovered
  obtain ⟨h, hresult, hpart⟩ := removeUseless_eq_ok hcovered
  have htrimmed := hpart.trimmed
  have hcovered' := hcovered.removeUnproductive.reachablePart hpart
  obtain ⟨u', hreport', huseful⟩ := htrimmed.allUseful hcovered'
  obtain ⟨k, hresult', hpart'⟩ := removeUseless_eq_ok hcovered'
  refine ⟨_, h, hreport, hresult, rules_removeUseless hcovered hreport hresult,
    allUseful_iff_rules_eq hcovered hreport hresult, ⟨u', hreport', huseful⟩, k, hresult', ?_,
    htrimmed.sameContent hpart'⟩
  exact (allUseful_iff_rules_eq hcovered' hreport' hresult').mp huseful

/-- A grammar that is not valid: a terminal has a rule, a symbol is not declared, and a nonterminal
is reached only through it. -/
def littered : Grammar where
  start := ⟨0⟩
  nonterminals := .ofList [⟨0⟩, ⟨1⟩]
  terminals := .ofList [⟨2⟩, ⟨3⟩]
  rules := [⟨⟨0⟩, [⟨2⟩]⟩, ⟨⟨0⟩, [⟨1⟩, ⟨4⟩]⟩, ⟨⟨1⟩, [⟨3⟩]⟩, ⟨⟨2⟩, [⟨2⟩, ⟨2⟩]⟩, ⟨⟨0⟩, [⟨2⟩]⟩]

def litteredTable : SymbolTable := (SymbolTable.empty.internAll ["S", "A", "a", "b", "x"]).2

/-- Two of its rules are reported, and the others are kept with their repetition. -/
theorem removeUseless_littered_matches_report :
    ∃ u h, Usefulness.ofGrammar littered litteredTable.size = .ok u ∧
      littered.removeUseless litteredTable.size = .ok h ∧
      u.reported littered.rules = [⟨⟨0⟩, [⟨1⟩, ⟨4⟩]⟩, ⟨⟨1⟩, [⟨3⟩]⟩] ∧
      h.rules = [⟨⟨0⟩, [⟨2⟩]⟩, ⟨⟨2⟩, [⟨2⟩, ⟨2⟩]⟩, ⟨⟨0⟩, [⟨2⟩]⟩] ∧
      ∃ k, h.removeUseless litteredTable.size = .ok k ∧ k.rules = h.rules ∧ h.SameContent k := by
  obtain ⟨u, h, hreport, hresult, hrules, _, _, hagain⟩ :=
    removeUseless_matches_report (g := littered) (t := litteredTable) (by decide +kernel)
  have hseen : (Usefulness.ofGrammar littered litteredTable.size).toOption.map
      (fun u => u.reported littered.rules) =
      some [⟨⟨0⟩, [⟨1⟩, ⟨4⟩]⟩, ⟨⟨1⟩, [⟨3⟩]⟩] := by decide +kernel
  rw [hreport] at hseen
  have hlisted : u.reported littered.rules = [⟨⟨0⟩, [⟨1⟩, ⟨4⟩]⟩, ⟨⟨1⟩, [⟨3⟩]⟩] :=
    Option.some.inj hseen
  refine ⟨u, h, hreport, hresult, hlisted, ?_, hagain⟩
  rw [hrules, hlisted]
  decide

end Grammar

end Chomsky
