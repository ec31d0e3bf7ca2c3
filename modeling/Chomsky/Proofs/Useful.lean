import Chomsky.NormalForm.Useful
import Chomsky.Proofs.Closure
import Chomsky.Proofs.Reachability
import Chomsky.Proofs.WellFormed

/-!
# Removal of useless symbols keeps words

Unproductive symbols have no words, so rules that mention one can go: every
symbol keeps its words. Removal of what the start symbol does not reach keeps the
words of every symbol that it reaches. After both removals each declared
nonterminal has a word and occurs in a sentential form, and no symbol is declared
that does not occur in the rules, the start symbol apart.
-/

namespace Chomsky.Grammar

variable {g h : Grammar} {t : SymbolTable} {s : Symbol} {rule : Rule}

/-! ### Unproductive symbols -/

/-- The start symbol and the nonterminals that have a word are left. -/
theorem mem_nonterminals_removeUnproductive :
    s ∈ g.removeUnproductive.nonterminals ↔
      s = g.start ∨ (s ∈ g.nonterminals ∧ (g.wordsOf s).Nonempty) := by
  rw [← mem_productiveSymbols_iff]
  simp [removeUnproductive, SymbolSet.mem_iff]

/-- The rules whose symbols all have a word are left. -/
theorem mem_rules_removeUnproductive :
    rule ∈ g.removeUnproductive.rules ↔ rule ∈ g.rules ∧ (g.wordsOf rule.lhs).Nonempty ∧
      ∀ s ∈ rule.rhs, (g.wordsOf s).Nonempty := by
  simp only [removeUnproductive, List.mem_filter, mentionsOnly, Bool.and_eq_true, List.all_eq_true,
    ← SymbolSet.mem_iff, mem_productiveSymbols_iff]

/-- A rule that can be read is kept: its symbols have words, and so its left side has one. -/
theorem mem_rules_removeUnproductive_of_reading (hrule : rule ∈ g.rules) {w : List Symbol}
    (hw : w ∈ formWords g.wordsOf rule.rhs) : rule ∈ g.removeUnproductive.rules := by
  have hrhs := formWords_nonempty_iff.mp ⟨w, hw⟩
  exact mem_rules_removeUnproductive.mpr ⟨hrule, ⟨w, g.fitsWords_wordsOf.rules rule hrule hw⟩, hrhs⟩

/-- Removal of unproductive symbols keeps the words of every symbol. -/
theorem wordsOf_removeUnproductive (g : Grammar) : g.removeUnproductive.wordsOf = g.wordsOf := by
  have hsound : g.removeUnproductive.FitsWords g.wordsOf :=
    ⟨g.fitsWords_wordsOf.terminals,
      fun rule hrule => g.fitsWords_wordsOf.rules rule (mem_rules_removeUnproductive.mp hrule).1⟩
  have hcomplete : g.FitsWords g.removeUnproductive.wordsOf := by
    refine ⟨g.removeUnproductive.fitsWords_wordsOf.terminals, fun rule hrule w hw => ?_⟩
    have hw' : w ∈ formWords g.wordsOf rule.rhs :=
      formWords_mono (fun s _ => hsound.wordsOf_subset s) hw
    have hkept := mem_rules_removeUnproductive_of_reading hrule hw'
    exact g.removeUnproductive.fitsWords_wordsOf.rules rule hkept hw
  funext s
  exact (hsound.wordsOf_subset s).antisymm (hcomplete.wordsOf_subset s)

/-- The removal of unproductive symbols keeps the language. -/
theorem language_removeUnproductive (g : Grammar) :
    g.removeUnproductive.language = g.language := by
  rw [language, wordsOf_removeUnproductive]
  rfl

/-- The removal of unproductive symbols leaves a well-formed grammar. -/
theorem WellFormed.removeUnproductive (hg : g.WellFormed) : g.removeUnproductive.WellFormed where
  disjoint s hs hmem := by
    have hterminal : s ∉ g.nonterminals := hg.disjoint s hs
    rcases mem_nonterminals_removeUnproductive.mp hmem with rfl | ⟨hs', _⟩
    · exact hterminal hg.start
    · exact hterminal hs'
  start := mem_nonterminals_removeUnproductive.mpr (Or.inl rfl)
  lhs rule hrule := by
    obtain ⟨hrule, hlhs, _⟩ := mem_rules_removeUnproductive.mp hrule
    exact mem_nonterminals_removeUnproductive.mpr (Or.inr ⟨hg.lhs rule hrule, hlhs⟩)
  rhs rule hrule s hs := by
    obtain ⟨hrule, _, hrhs⟩ := mem_rules_removeUnproductive.mp hrule
    refine (hg.rhs rule hrule s hs).imp_right fun hmem => ?_
    exact mem_nonterminals_removeUnproductive.mpr (Or.inr ⟨hmem, hrhs s hs⟩)

/-- The removal of unproductive symbols leaves a covered grammar. -/
theorem CoveredBy.removeUnproductive (hg : g.CoveredBy t) : g.removeUnproductive.CoveredBy t where
  start := hg.start
  nonterminals s hs := by
    rcases mem_nonterminals_removeUnproductive.mp hs with rfl | ⟨hs, _⟩
    · exact hg.start
    · exact hg.nonterminals s hs
  terminals := hg.terminals
  rules rule hrule := hg.rules rule (mem_rules_removeUnproductive.mp hrule).1

/-! ### Unreachable symbols -/

/-- The second grammar is what the start symbol of the first reaches. -/
structure ReachablePart (g h : Grammar) : Prop where
  start : h.start = g.start
  nonterminals : ∀ s, s ∈ h.nonterminals ↔ s ∈ g.nonterminals ∧ Reaches g.rules g.start s
  terminals : ∀ s, s ∈ h.terminals ↔ s ∈ g.terminals ∧ Reaches g.rules g.start s
  rules : ∀ rule, rule ∈ h.rules ↔ rule ∈ g.rules ∧ Reaches g.rules g.start rule.lhs

/-- A covered grammar has its reachable part computed. -/
theorem removeUnreachable_eq_ok (hg : g.CoveredBy t) :
    ∃ h, g.removeUnreachable t.size = .ok h ∧ g.ReachablePart h := by
  obtain ⟨set, hok, hmem⟩ := reachableSymbols_eq_ok hg
  refine ⟨g.restrictTo set, by rw [removeUnreachable, hok]; rfl, rfl, fun s => ?_, fun s => ?_,
    fun rule => ?_⟩
  · rw [← hmem]
    simp [restrictTo, SymbolSet.mem_iff]
  · rw [← hmem]
    simp [restrictTo, SymbolSet.mem_iff]
  · rw [← hmem]
    simp [restrictTo, SymbolSet.mem_iff]

/-- Every symbol of a kept rule is reached. -/
theorem ReachablePart.reaches_rhs (hpart : g.ReachablePart h) (hrule : rule ∈ h.rules)
    (hs : s ∈ rule.rhs) : Reaches g.rules g.start s := by
  obtain ⟨hrule, hlhs⟩ := (hpart.rules rule).mp hrule
  exact hlhs.tail ⟨rule, hrule, rfl, hs⟩

/-- The reachable symbols are reached within the reachable part. -/
theorem ReachablePart.reaches_iff (hpart : g.ReachablePart h) :
    Reaches h.rules h.start s ↔ Reaches g.rules g.start s := by
  rw [hpart.start]
  constructor
  · refine fun hs => Relation.ReflTransGen.mono ?_ _ _ hs
    rintro a b ⟨rule, hrule, hlhs, hb⟩
    exact ⟨rule, ((hpart.rules rule).mp hrule).1, hlhs, hb⟩
  · intro hs
    induction hs with
    | refl => exact Relation.ReflTransGen.refl
    | tail hreaches hstep ih =>
      obtain ⟨rule, hrule, rfl, hb⟩ := hstep
      exact ih.tail ⟨rule, (hpart.rules rule).mpr ⟨hrule, hreaches⟩, rfl, hb⟩

/-- Removal of unreachable symbols keeps the words of every reachable symbol. -/
theorem ReachablePart.wordsOf_eq (hpart : g.ReachablePart h) (hs : Reaches g.rules g.start s) :
    h.wordsOf s = g.wordsOf s := by
  have hsound : h.FitsWords g.wordsOf :=
    ⟨fun s hs => g.fitsWords_wordsOf.terminals s ((hpart.terminals s).mp hs).1,
      fun rule hrule => g.fitsWords_wordsOf.rules rule ((hpart.rules rule).mp hrule).1⟩
  have hcomplete : g.FitsWords fun s => {w | Reaches g.rules g.start s → w ∈ h.wordsOf s} := by
    refine ⟨fun s hs hreaches => ?_, fun rule hrule w hw hreaches => ?_⟩
    · exact h.fitsWords_wordsOf.terminals s ((hpart.terminals s).mpr ⟨hs, hreaches⟩)
    · have hkept : rule ∈ h.rules := (hpart.rules rule).mpr ⟨hrule, hreaches⟩
      refine h.fitsWords_wordsOf.rules rule hkept (formWords_mono (fun s hs u hu => ?_) hw)
      exact hu (hpart.reaches_rhs hkept hs)
  exact (hsound.wordsOf_subset s).antisymm fun w hw => hcomplete.wordsOf_subset s hw hs

/-- The reachable part has the same language. -/
theorem ReachablePart.language_eq (hpart : g.ReachablePart h) : h.language = g.language := by
  rw [language, hpart.start, hpart.wordsOf_eq Relation.ReflTransGen.refl]
  rfl

/-- The reachable part is well-formed. -/
theorem WellFormed.reachablePart (hg : g.WellFormed) (hpart : g.ReachablePart h) :
    h.WellFormed where
  disjoint s hs hmem :=
    hg.disjoint s ((hpart.terminals s).mp hs).1 ((hpart.nonterminals s).mp hmem).1
  start := by
    rw [hpart.start]
    exact (hpart.nonterminals _).mpr ⟨hg.start, Relation.ReflTransGen.refl⟩
  lhs rule hrule := by
    obtain ⟨hrule, hlhs⟩ := (hpart.rules rule).mp hrule
    exact (hpart.nonterminals _).mpr ⟨hg.lhs rule hrule, hlhs⟩
  rhs rule hrule s hs := by
    have hreaches := hpart.reaches_rhs hrule hs
    rw [hpart.terminals, hpart.nonterminals]
    exact (hg.rhs rule ((hpart.rules rule).mp hrule).1 s hs).imp (⟨·, hreaches⟩) (⟨·, hreaches⟩)

/-- The reachable part is covered by the same table. -/
theorem CoveredBy.reachablePart (hg : g.CoveredBy t) (hpart : g.ReachablePart h) :
    h.CoveredBy t where
  start := hpart.start ▸ hg.start
  nonterminals s hs := hg.nonterminals s ((hpart.nonterminals s).mp hs).1
  terminals s hs := hg.terminals s ((hpart.terminals s).mp hs).1
  rules rule hrule := hg.rules rule ((hpart.rules rule).mp hrule).1

/-! ### Both removals -/

/-- A covered grammar has its useless symbols removed. -/
theorem removeUseless_eq_ok (hg : g.CoveredBy t) :
    ∃ h, g.removeUseless t.size = .ok h ∧ g.removeUnproductive.ReachablePart h :=
  removeUnreachable_eq_ok hg.removeUnproductive

/-- A declared symbol of the reachable part is the start symbol or occurs in a rule. -/
theorem ReachablePart.occurs (hpart : g.ReachablePart h)
    (hs : s ∈ h.terminals ∨ s ∈ h.nonterminals) :
    s = h.start ∨ ∃ rule ∈ h.rules, s ∈ rule.rhs := by
  have hreaches : Reaches h.rules h.start s := by
    rw [hpart.reaches_iff]
    rcases hs with hs | hs
    · exact ((hpart.terminals s).mp hs).2
    · exact ((hpart.nonterminals s).mp hs).2
  rcases Relation.ReflTransGen.cases_tail hreaches with heq | ⟨_, _, rule, hrule, _, hmem⟩
  · exact Or.inl heq
  · exact Or.inr ⟨rule, hrule, hmem⟩

/-- After both removals every declared nonterminal has a word, if the start symbol has one. -/
theorem ReachablePart.wordsOf_nonempty (hpart : g.removeUnproductive.ReachablePart h)
    (hlanguage : g.language.Nonempty) (hs : s ∈ h.nonterminals) : (h.wordsOf s).Nonempty := by
  obtain ⟨hs, hreaches⟩ := (hpart.nonterminals s).mp hs
  rw [hpart.wordsOf_eq hreaches, wordsOf_removeUnproductive]
  rcases mem_nonterminals_removeUnproductive.mp hs with rfl | ⟨_, hwords⟩
  · exact hlanguage
  · exact hwords

end Chomsky.Grammar
