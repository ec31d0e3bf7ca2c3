import Chomsky.NormalForm.UnitFree
import Chomsky.Proofs.EpsilonFree

/-!
# Elimination of unit rules keeps words

After the elimination a nonterminal has exactly the rules, other than unit rules,
of the symbols that it derives by unit rules. Every symbol keeps its words. A word
of a nonterminal starts with a chain of unit rules, and the rule after the chain
is one that the nonterminal has taken over.
-/

namespace Chomsky.Grammar

variable {g h : Grammar} {t : SymbolTable} {s : Symbol} {rule : Rule}

/-- The right side is a single nonterminal. -/
def IsUnit (g : Grammar) (rhs : List Symbol) : Prop := ∃ b ∈ g.nonterminals, rhs = [b]

/-- The nonterminal derives by unit rules a symbol with this right side, which is no unit. -/
def Inherits (g : Grammar) (a : Symbol) (rhs : List Symbol) : Prop :=
  ∃ b, Relation.ReflTransGen g.UnitStep a b ∧ ⟨b, rhs⟩ ∈ g.rules ∧ ¬g.IsUnit rhs

/-- The second grammar has the symbols of the first, and the rules that its nonterminals
inherit. -/
structure UnitFreeForm (g h : Grammar) : Prop where
  start : h.start = g.start
  nonterminals : h.nonterminals = g.nonterminals
  terminals : h.terminals = g.terminals
  rules : ∀ rule, rule ∈ h.rules ↔ rule.lhs ∈ g.nonterminals ∧ g.Inherits rule.lhs rule.rhs

/-- The proper rules of a symbol are its rules other than unit rules. -/
theorem mem_properRulesOf_iff :
    rule ∈ g.properRulesOf s ↔ rule ∈ g.rules ∧ rule.lhs = s ∧ ¬g.IsUnit rule.rhs := by
  rw [properRulesOf, List.mem_filter, Bool.and_eq_true, decide_eq_true_eq, Bool.not_eq_true',
    ← Bool.not_eq_true, isUnitRule_iff]
  rfl

/-- What a nonterminal takes over from the symbols that it derives is what it inherits. -/
theorem mem_inheritedRules_iff {lhs : Symbol} {derived : List Symbol}
    (hderived : ∀ x, x ∈ derived ↔ Relation.ReflTransGen g.UnitStep lhs x) :
    rule ∈ g.inheritedRules lhs derived ↔ rule.lhs = lhs ∧ g.Inherits rule.lhs rule.rhs := by
  rw [inheritedRules, distinctRules_eq_eraseDups, List.mem_eraseDups]
  simp only [List.mem_map, List.mem_flatMap, mem_properRulesOf_iff, hderived]
  constructor
  · rintro ⟨⟨b, rhs⟩, ⟨_, hchain, hrule, rfl, hproper⟩, rfl⟩
    exact ⟨rfl, b, hchain, hrule, hproper⟩
  · rintro ⟨rfl, b, hchain, hrule, hproper⟩
    exact ⟨⟨b, rule.rhs⟩, ⟨b, hchain, hrule, rfl, hproper⟩, rfl⟩

/-- The listed nonterminals inherit without failure if the rows of the relation hold what they
derive. -/
theorem unitFreeRules_eq_ok {r : SymbolRelation} {lhss : List Symbol}
    (hrow : ∀ lhs ∈ lhss, ∃ derived, r.row lhs = .ok derived ∧
      ∀ x, x ∈ derived ↔ Relation.ReflTransGen g.UnitStep lhs x) :
    ∃ rules, g.unitFreeRules r lhss = .ok rules ∧
      ∀ rule, rule ∈ rules ↔ rule.lhs ∈ lhss ∧ g.Inherits rule.lhs rule.rhs := by
  induction lhss with
  | nil => exact ⟨[], rfl, by simp⟩
  | cons lhs rest ih =>
    obtain ⟨derived, hderived, hmem⟩ := hrow lhs List.mem_cons_self
    obtain ⟨others, hothers, hmem'⟩ := ih fun x hx => hrow x (List.mem_cons_of_mem _ hx)
    refine ⟨g.inheritedRules lhs derived ++ others, ?_, fun rule => ?_⟩
    · rw [unitFreeRules, hderived, hothers]
      rfl
    · rw [List.mem_append, mem_inheritedRules_iff hmem, hmem', List.mem_cons, or_and_right]

/-- A covered grammar has its unit rules eliminated. -/
theorem eliminateUnits_eq_ok (hg : g.CoveredBy t) :
    ∃ h, g.eliminateUnits t.size = .ok h ∧ g.UnitFreeForm h := by
  obtain ⟨r, hok, _, hrows⟩ := unitDerivation_eq_ok hg
  have hall : ∀ lhs ∈ g.nonterminals.toList, ∃ derived, r.row lhs = .ok derived ∧
      ∀ x, x ∈ derived ↔ Relation.ReflTransGen g.UnitStep lhs x :=
    fun lhs hlhs => hrows lhs (hg.nonterminals lhs (SymbolSet.mem_toList.mp hlhs))
  obtain ⟨rules, hrules, hmem⟩ := unitFreeRules_eq_ok hall
  refine ⟨g.withRules rules, ?_, rfl, rfl, rfl, fun rule => ?_⟩
  · rw [eliminateUnits, hok]
    show (g.unitFreeRules r g.nonterminals.toList >>= fun rules => pure (g.withRules rules)) = _
    rw [hrules]
    rfl
  · rw [SymbolSet.mem_iff, ← SymbolSet.mem_toList]
    exact hmem rule

/-- A chain of unit rules passes words on. -/
theorem wordsOf_subset_of_unitChain {a b : Symbol}
    (hchain : Relation.ReflTransGen g.UnitStep a b) : g.wordsOf b ⊆ g.wordsOf a := by
  induction hchain with
  | refl => exact subset_rfl
  | tail _ hstep ih =>
    have hunit := g.fitsWords_wordsOf.rules _ hstep.1
    rw [formWords_singleton] at hunit
    exact hunit.trans ih

namespace UnitFreeForm

/-- No unit rule is left. -/
theorem not_isUnit (hform : g.UnitFreeForm h) (hrule : rule ∈ h.rules) :
    ¬h.IsUnit rule.rhs := by
  obtain ⟨_, _, _, _, hproper⟩ := (hform.rules rule).mp hrule
  rwa [IsUnit, hform.nonterminals]

/-- Elimination of unit rules keeps the words of every symbol. -/
theorem wordsOf_eq (hform : g.UnitFreeForm h) (hg : g.WellFormed) : h.wordsOf = g.wordsOf := by
  have hsound : h.FitsWords g.wordsOf := by
    refine ⟨fun s hs => g.fitsWords_wordsOf.terminals s (hform.terminals ▸ hs),
      fun rule hrule => ?_⟩
    obtain ⟨_, b, hchain, hrule, _⟩ := (hform.rules rule).mp hrule
    exact (g.fitsWords_wordsOf.rules _ hrule).trans (wordsOf_subset_of_unitChain hchain)
  have hcomplete : g.FitsWords h.wordsOf := by
    refine ⟨fun s hs => h.fitsWords_wordsOf.terminals s (hform.terminals ▸ hs), ?_⟩
    rintro ⟨a, rhs⟩ hrule w hw
    have ha : a ∈ g.nonterminals := hg.lhs _ hrule
    by_cases hunit : g.IsUnit rhs
    · -- The word of the unit comes from a rule that the left side inherits along with it.
      obtain ⟨b, hb, rfl⟩ := hunit
      rw [formWords_singleton, mem_wordsOf_iff] at hw
      rcases hw with ⟨hterminal, _⟩ | ⟨⟨_, rhs⟩, hrule', rfl, hw⟩
      · exact absurd hb (hg.disjoint b (hform.terminals ▸ hterminal))
      · obtain ⟨_, c, hchain, hproper⟩ := (hform.rules _).mp hrule'
        have hinherits : g.Inherits a rhs := ⟨c, hchain.head ⟨hrule, hb⟩, hproper⟩
        exact h.fitsWords_wordsOf.rules ⟨a, rhs⟩ ((hform.rules _).mpr ⟨ha, hinherits⟩) hw
    · have hinherits : g.Inherits a rhs := ⟨a, Relation.ReflTransGen.refl, hrule, hunit⟩
      exact h.fitsWords_wordsOf.rules ⟨a, rhs⟩ ((hform.rules _).mpr ⟨ha, hinherits⟩) hw
  funext s
  exact (hsound.wordsOf_subset s).antisymm (hcomplete.wordsOf_subset s)

/-- The form without unit rules has the same language. -/
theorem language_eq (hform : g.UnitFreeForm h) (hg : g.WellFormed) : h.language = g.language := by
  rw [language, hform.wordsOf_eq hg, hform.start]
  rfl

/-- The form without unit rules is well-formed. -/
theorem wellFormed (hform : g.UnitFreeForm h) (hg : g.WellFormed) : h.WellFormed where
  disjoint := by
    rw [hform.terminals, hform.nonterminals]
    exact hg.disjoint
  start := by
    rw [hform.start, hform.nonterminals]
    exact hg.start
  lhs rule hrule := by
    rw [hform.nonterminals]
    exact ((hform.rules rule).mp hrule).1
  rhs rule hrule s hs := by
    obtain ⟨_, b, _, hrule, _⟩ := (hform.rules rule).mp hrule
    rw [hform.terminals, hform.nonterminals]
    exact hg.rhs _ hrule s hs

/-- The form without unit rules is covered by the same table. -/
theorem coveredBy (hform : g.UnitFreeForm h) (hg : g.CoveredBy t) : h.CoveredBy t where
  start := hform.start ▸ hg.start
  nonterminals := hform.nonterminals ▸ hg.nonterminals
  terminals := hform.terminals ▸ hg.terminals
  rules rule hrule := by
    obtain ⟨hlhs, b, _, hrule, _⟩ := (hform.rules rule).mp hrule
    have hrhs := (hg.rules _ hrule).2
    exact ⟨hg.nonterminals _ hlhs, hrhs⟩

/-- An epsilon rule of the start symbol is taken over by no other symbol, because no unit rule
leads to a symbol that stands on no right side. -/
theorem onlyStartEmpty (hform : g.UnitFreeForm h) (hg : g.OnlyStartEmpty) : h.OnlyStartEmpty := by
  intro rule hrule hrhs
  obtain ⟨_, b, hchain, hrule, _⟩ := (hform.rules rule).mp hrule
  obtain ⟨hstart, hnot⟩ := hg _ hrule hrhs
  rw [hform.start]
  constructor
  · rcases Relation.ReflTransGen.cases_tail hchain with heq | ⟨_, _, hunit, _⟩
    · exact heq.symm.trans hstart
    · exact absurd (hstart ▸ List.mem_singleton_self b) (hnot _ hunit)
  · intro rule' hrule'
    obtain ⟨_, c, _, hrule', _⟩ := (hform.rules rule').mp hrule'
    exact hnot ⟨c, rule'.rhs⟩ hrule'

end UnitFreeForm

end Chomsky.Grammar
