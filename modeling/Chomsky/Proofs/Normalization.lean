import Chomsky.Proofs.Stages

/-!
# Normalization is correct

A covered, valid grammar is reported as empty exactly if it has no word. Otherwise
all stages have its language, the last one is in Chomsky normal form, and no stage
declares a symbol that does not belong there. A table can tell at most `2 ^ 32`
symbols apart, so what is said of the stages supposes that the last table is no
larger.
-/

namespace Chomsky

namespace Grammar

variable {g h : Grammar} {t t' : SymbolTable} {naming : Naming} {stages : Stages} {s : Symbol}
  {rule : Rule}

/-- The grammar of the words with some `a`s and as many `b`s after them. -/
def nested : Grammar where
  start := ⟨0⟩
  nonterminals := .ofList [⟨0⟩]
  terminals := .ofList [⟨1⟩, ⟨2⟩]
  rules := [⟨⟨0⟩, [⟨1⟩, ⟨0⟩, ⟨2⟩]⟩, ⟨⟨0⟩, []⟩]

/-- The names of its symbols. -/
def nestedTable : SymbolTable := (SymbolTable.empty.internAll ["S", "a", "b"]).2

/-- It is normalized with four more names. -/
theorem normalize_nested : ∃ stages t',
    (nested.normalize nestedTable {}).outcome = .ok (.cnf stages, t') ∧ t'.size ≤ UInt32.size := by
  obtain ⟨stages, t', hresult, hsize⟩ := normalize_of_size (g := nested) (t := nestedTable) (n := 7)
    (by decide +kernel) (by decide +kernel) (by decide +kernel) {} (by decide +kernel)
  exact ⟨stages, t', hresult, hsize.trans_le (by decide)⟩

/-! ### Language -/

/-- Normalization of a covered, valid grammar reports an empty language exactly if there is no
word. Otherwise it succeeds, and all stages have the language of the grammar. -/
theorem normalize_keeps_language (hcovered : g.CoveredBy t) (hvalid : g.validate t = .ok ())
    (naming : Naming) :
    ((g.normalize t naming).outcome = .ok (.emptyLanguage, t) ↔ g.language = ∅) ∧
      (g.language.Nonempty → ∃ stages t', (g.normalize t naming).outcome = .ok (.cnf stages, t') ∧
        (t'.size ≤ UInt32.size → ∀ stage ∈ stages.toList, stage.language = g.language)) := by
  have hwell := (validate_eq_ok_iff.mp hvalid).1
  refine ⟨⟨fun hresult => ?_, fun hempty => normalize_of_language_empty hvalid hempty naming⟩,
    fun hword => ?_⟩
  · by_contra hne
    have hword := Set.nonempty_iff_ne_empty.mpr hne
    obtain ⟨stages, t', hresult', _⟩ := normalize_of_language_nonempty hcovered hvalid hword naming
    rw [hresult] at hresult'
    cases hresult'
  · obtain ⟨stages, t', hresult, hstaged⟩ :=
      normalize_of_language_nonempty hcovered hvalid hword naming
    refine ⟨stages, t', hresult, fun hsize stage hstage => ?_⟩
    exact (hstaged.sound hwell hcovered hsize stage hstage).language

/-- All stages of a grammar with all kinds of rules have its language. -/
theorem normalize_nested_keeps_language : ∃ stages t',
    (nested.normalize nestedTable {}).outcome = .ok (.cnf stages, t') ∧
      ∀ stage ∈ stages.toList, stage.language = nested.language := by
  obtain ⟨stages, t', hresult, hsize⟩ := normalize_nested
  obtain ⟨hempty, hword⟩ := normalize_keeps_language (g := nested) (t := nestedTable)
    (by decide +kernel) (by decide +kernel) {}
  have hne : nested.language.Nonempty := by
    refine Set.nonempty_iff_ne_empty.mpr fun hnone => ?_
    rw [hempty.mpr hnone] at hresult
    cases hresult
  obtain ⟨stages', t'', hresult', hlanguage⟩ := hword hne
  rw [hresult] at hresult'
  cases hresult'
  exact ⟨stages, t', hresult, hlanguage hsize⟩

/-! ### Normal form -/

/-- A rule has a nonterminal on the left, and on the right nothing, one terminal or two
nonterminals. Nothing stands on the right only of a start symbol that itself stands on no right
side. -/
structure IsChomskyNormal (g : Grammar) : Prop where
  lhs : ∀ rule ∈ g.rules, rule.lhs ∈ g.nonterminals
  rhs : ∀ rule ∈ g.rules, rule.rhs = [] ∨ (∃ a ∈ g.terminals, rule.rhs = [a]) ∨
    ∃ b ∈ g.nonterminals, ∃ c ∈ g.nonterminals, rule.rhs = [b, c]
  epsilon : ∀ rule ∈ g.rules, rule.rhs = [] →
    rule.lhs = g.start ∧ ∀ rule' ∈ g.rules, g.start ∉ rule'.rhs

/-- The symbols on the right of a useful rule stay declared as they were. -/
theorem ReachablePart.mem_of_mem_rhs (hpart : g.removeUnproductive.ReachablePart h)
    (hrule : rule ∈ h.rules) (hs : s ∈ rule.rhs) :
    (s ∈ g.terminals → s ∈ h.terminals) ∧ (s ∈ g.nonterminals → s ∈ h.nonterminals) := by
  have hreaches := hpart.reaches_rhs hrule hs
  have hwords := (mem_rules_removeUnproductive.mp ((hpart.rules rule).mp hrule).1).2.2 s hs
  constructor
  · exact fun hterminal => (hpart.terminals s).mpr ⟨hterminal, hreaches⟩
  · intro hnonterminal
    have hproductive := mem_nonterminals_removeUnproductive.mpr (Or.inr ⟨hnonterminal, hwords⟩)
    exact (hpart.nonterminals s).mpr ⟨hproductive, hreaches⟩

/-- The last stage is in normal form. -/
theorem Staged.isChomskyNormal (hstaged : g.Staged t naming stages t') (hg : g.WellFormed)
    (hcovered : g.CoveredBy t) (hsize : t'.size ≤ UInt32.size) : stages.cnf.IsChomskyNormal where
  lhs := (hstaged.sound_cnf hg hcovered hsize).wellFormed.lhs
  rhs rule hrule := by
    obtain ⟨name, hsplit⟩ := hstaged.splitBy hg hcovered hsize
    have hwell := (hstaged.sound_unitFree hg hcovered hsize).wellFormed
    have hunit : ∀ rule ∈ stages.unitFree.rules, ¬stages.unitFree.IsUnit rule.rhs :=
      fun rule hrule => hstaged.unitFree.not_isUnit hrule
    have hrule' := (mem_rules_removeUnproductive.mp ((hstaged.cnf.rules rule).mp hrule).1).1
    have hkept := fun x hx => hstaged.cnf.mem_of_mem_rhs (s := x) hrule hx
    rcases hsplit.rhs_shape hwell hunit hrule' with hrhs | ⟨a, ha, hrhs⟩ | ⟨b, hb, c, hc, hrhs⟩
    · exact Or.inl hrhs
    · exact Or.inr (Or.inl ⟨a, (hkept a (by simp [hrhs])).1 ha, hrhs⟩)
    · exact Or.inr (Or.inr ⟨b, (hkept b (by simp [hrhs])).2 hb, c, (hkept c (by simp [hrhs])).2 hc,
        hrhs⟩)
  epsilon := (hstaged.onlyStartEmpty hg hcovered hsize).2

/-- A normalized grammar is in Chomsky normal form, with an epsilon rule exactly if the start
symbol derived the empty word. -/
theorem normalize_isChomskyNormal (hcovered : g.CoveredBy t)
    (hresult : (g.normalize t naming).outcome = .ok (.cnf stages, t'))
    (hsize : t'.size ≤ UInt32.size) :
    stages.cnf.IsChomskyNormal ∧
      ((∃ rule ∈ stages.cnf.rules, rule.rhs = []) ↔ Derives g.rules [g.start] []) := by
  obtain ⟨hwell, _, hstaged⟩ := staged_of_normalize hcovered hresult
  have hnormal := hstaged.isChomskyNormal hwell hcovered hsize
  have hlanguage := (hstaged.sound_cnf hwell hcovered hsize).language
  have hempty : ([] ∈ g.language) ↔ Derives g.rules [g.start] [] :=
    and_iff_right fun s hs => absurd hs List.not_mem_nil
  have honly : stages.cnf.OnlyStartEmpty := hnormal.epsilon
  refine ⟨hnormal, ?_⟩
  rw [← hempty, ← hlanguage, language, honly.nil_mem_wordsOf_iff]
  constructor
  · rintro ⟨⟨lhs, _⟩, hrule, rfl⟩
    have hlhs : lhs = stages.cnf.start := (hnormal.epsilon _ hrule rfl).1
    rwa [hlhs] at hrule
  · exact fun hrule => ⟨_, hrule, rfl⟩

/-- The last stage of a grammar with all kinds of rules is in normal form, with an empty rule. -/
theorem normalize_nested_isChomskyNormal : ∃ stages t',
    (nested.normalize nestedTable {}).outcome = .ok (.cnf stages, t') ∧ t'.size ≤ UInt32.size ∧
      stages.cnf.IsChomskyNormal ∧ ∃ rule ∈ stages.cnf.rules, rule.rhs = [] := by
  obtain ⟨stages, t', hresult, hsize⟩ := normalize_nested
  obtain ⟨hnormal, hepsilon⟩ := normalize_isChomskyNormal (by decide +kernel) hresult hsize
  have hrule : (⟨⟨0⟩, []⟩ : Rule) ∈ nested.rules := by decide
  exact ⟨stages, t', hresult, hsize, hnormal, hepsilon.mpr (Derives.of_rule hrule)⟩

/-! ### Declared symbols -/

/-- Every stage of a normalized grammar is well-formed and covered by the table that comes back.
The last stage declares the symbols of its rules and its start symbol, and no others. Each of its
nonterminals derives a word and occurs in a sentential form. -/
theorem normalize_declares_exactly (hcovered : g.CoveredBy t)
    (hresult : (g.normalize t naming).outcome = .ok (.cnf stages, t'))
    (hsize : t'.size ≤ UInt32.size) :
    (∀ stage ∈ stages.toList, stage.WellFormed ∧ stage.CoveredBy t') ∧
      (∀ s, s ∈ stages.cnf.terminals ∨ s ∈ stages.cnf.nonterminals ↔
        s = stages.cnf.start ∨ ∃ rule ∈ stages.cnf.rules, s = rule.lhs ∨ s ∈ rule.rhs) ∧
      ∀ s ∈ stages.cnf.nonterminals,
        (stages.cnf.wordsOf s).Nonempty ∧ s ∈ stages.cnf.sententialSymbols := by
  obtain ⟨hwell, hword, hstaged⟩ := staged_of_normalize hcovered hresult
  have hcnf := (hstaged.sound_cnf hwell hcovered hsize).wellFormed
  have hsplit := (hstaged.sound_split hwell hcovered hsize).language
  refine ⟨fun stage hstage => ?_, fun s => ⟨fun hs => ?_, ?_⟩, fun s hs => ⟨?_, ?_⟩⟩
  · have hsound := hstaged.sound hwell hcovered hsize stage hstage
    exact ⟨hsound.wellFormed, hsound.covered⟩
  · rcases hstaged.cnf.occurs hs with heq | ⟨rule, hrule, hmem⟩
    · exact Or.inl heq
    · exact Or.inr ⟨rule, hrule, Or.inr hmem⟩
  · rintro (rfl | ⟨rule, hrule, rfl | hmem⟩)
    · exact Or.inr hcnf.start
    · exact Or.inr (hcnf.lhs rule hrule)
    · exact hcnf.rhs rule hrule s hmem
  · exact hstaged.cnf.wordsOf_nonempty (hsplit ▸ hword) hs
  · rw [mem_sententialSymbols_iff, hstaged.cnf.reaches_iff]
    exact ((hstaged.cnf.nonterminals s).mp hs).2

/-- The stages of a grammar with all kinds of rules are well-formed and covered. -/
theorem normalize_nested_declares_exactly : ∃ stages t',
    (nested.normalize nestedTable {}).outcome = .ok (.cnf stages, t') ∧ t'.size ≤ UInt32.size ∧
      (∀ stage ∈ stages.toList, stage.WellFormed ∧ stage.CoveredBy t') ∧
      (stages.cnf.wordsOf stages.cnf.start).Nonempty := by
  obtain ⟨stages, t', hresult, hsize⟩ := normalize_nested
  obtain ⟨hstages, _, hwords⟩ := normalize_declares_exactly (by decide +kernel) hresult hsize
  have hstart := (hstages stages.cnf (by simp [Stages.toList])).1.start
  exact ⟨stages, t', hresult, hsize, hstages, (hwords _ hstart).1⟩

end Grammar

end Chomsky
