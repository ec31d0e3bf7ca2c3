import Chomsky.Proofs.Normalization
import Chomsky.Proofs.SplitRenaming

/-!
# Normalization up to renaming

The order of rules, their repetitions and the names chosen for introduced symbols
do not matter: two normal forms of a grammar differ by a renaming of nonterminals.
The renaming leaves alone what was declared from the reachable stage on. A
nonterminal that had only epsilon rules is dropped on the way, and its name is free
again. An introduced symbol may then take its place in one normal form and not in
another.
-/

namespace Chomsky

namespace Grammar

variable {g h : Grammar} {t u t' u' : SymbolTable} {naming naming' : Naming}
  {stages stages' : Stages} {f : Symbol → Symbol}

/-- The grammars differ at most in the order and the repetitions of their rules. -/
structure SameContent (g h : Grammar) : Prop where
  start : g.start = h.start
  nonterminals : ∀ s, s ∈ g.nonterminals ↔ s ∈ h.nonterminals
  terminals : ∀ s, s ∈ g.terminals ↔ s ∈ h.terminals
  rules : ∀ rule, rule ∈ g.rules ↔ rule ∈ h.rules

/-- Grammars of the same content are renamed to each other by the identity. -/
theorem SameContent.renamedBy (hsame : g.SameContent h) : g.RenamedBy id h where
  start := hsame.start
  nonterminals := by
    have hsets : {s | s ∈ g.nonterminals} = {s | s ∈ h.nonterminals} :=
      Set.ext fun s => hsame.nonterminals s
    rw [hsets]
    exact Set.bijOn_id _
  terminals s := (hsame.terminals s).symm
  fixes _ _ := rfl
  rules rule := by
    rw [← hsame.rules]
    constructor
    · exact fun hrule => ⟨rule, hrule, by simp [Rule.map]⟩
    · rintro ⟨rule', hrule', rfl⟩
      simpa [Rule.map] using hrule'

/-- A renaming is extended to the start symbols that the elimination of epsilon rules may
introduce. -/
theorem RenamedBy.eliminateEpsilon (hrenamed : g.RenamedBy f h) (hh : h.WellFormed)
    (hg : g.WellFormed) (hcovered : g.CoveredBy t) (hcovered' : h.CoveredBy u)
    (hsize : (g.eliminateEpsilon t naming).2.size ≤ UInt32.size)
    (hsize' : (h.eliminateEpsilon u naming').2.size ≤ UInt32.size) :
    ∃ f', Set.EqOn f f' g.declared ∧
      (g.eliminateEpsilon t naming).1.RenamedBy f' (h.eliminateEpsilon u naming').1 := by
  have hwell : (g.expandEpsilon t naming).1.WellFormed := hg.expandEpsilon hcovered hsize
  have hwell' : (h.expandEpsilon u naming').1.WellFormed := hh.expandEpsilon hcovered' hsize'
  have hsuffices : ∀ f', (g.expandEpsilon t naming).1.RenamedBy f' (h.expandEpsilon u naming').1 →
      (g.eliminateEpsilon t naming).1.RenamedBy f' (h.eliminateEpsilon u naming').1 :=
    fun f' hexpanded => hexpanded.removeUnproductive hwell' hwell
  have hexpanded := hrenamed.expandNullable hh hg
  have hnullable := hrenamed.mem_nullableSymbols_map_iff hh hg (Or.inr hg.start)
  rw [hrenamed.start] at hnullable
  by_cases hstart : g.start ∈ g.nullableSymbols
  · have hstart' := hnullable.mpr hstart
    have hnew : (g.newStart t naming).1 ∉ g.declared := by
      rw [not_mem_declared_iff]
      refine not_isDeclared_newStart hcovered ?_
      rwa [Grammar.eliminateEpsilon, expandEpsilon_of_nullable hstart] at hsize
    have hnew' : (h.newStart u naming').1 ∉ h.declared := by
      rw [not_mem_declared_iff]
      refine not_isDeclared_newStart hcovered' ?_
      rwa [Grammar.eliminateEpsilon, expandEpsilon_of_nullable hstart'] at hsize'
    refine ⟨Function.update f (g.newStart t naming).1 (h.newStart u naming').1, fun s hs => ?_,
      hsuffices _ ?_⟩
    · have hne : s ≠ (g.newStart t naming).1 := fun heq => hnew (heq ▸ hs)
      exact (Function.update_of_ne hne ..).symm
    · rw [expandEpsilon_of_nullable hstart, expandEpsilon_of_nullable hstart']
      exact hexpanded.prependStart hg.expandNullable hnew hnew'
  · have hstart' : h.start ∉ h.nullableSymbols := fun hmem => hstart (hnullable.mp hmem)
    refine ⟨f, Set.eqOn_refl _ _, hsuffices f ?_⟩
    rw [expandEpsilon_of_not_nullable hstart, expandEpsilon_of_not_nullable hstart']
    exact hexpanded

/-- Stage by stage, two runs differ by a renaming. -/
theorem Staged.renamedBy (hsame : g.SameContent h) (hg : g.WellFormed) (hh : h.WellFormed)
    (hcovered : g.CoveredBy t) (hcovered' : h.CoveredBy u)
    (hstaged : g.Staged t naming stages t') (hstaged' : h.Staged u naming' stages' u')
    (hsize : t'.size ≤ UInt32.size) (hsize' : u'.size ≤ UInt32.size) :
    ∃ f, stages.cnf.RenamedBy f stages'.cnf ∧
      ∀ s ∈ stages.reachable.nonterminals, s ∈ stages.epsilonFree.nonterminals → f s = s := by
  have hreachable := hstaged.sound_reachable hg hcovered
  have hreachable' := hstaged'.sound_reachable hh hcovered'
  have hepsilonFree := hstaged.sound_epsilonFree hg hcovered hsize
  have hepsilonFree' := hstaged'.sound_epsilonFree hh hcovered' hsize'
  have hunitFree := hstaged.sound_unitFree hg hcovered hsize
  have hunitFree' := hstaged'.sound_unitFree hh hcovered' hsize'
  have hsplit := hstaged.sound_split hg hcovered hsize
  have hsplit' := hstaged'.sound_split hh hcovered' hsize'
  have hproductive : stages.productive.RenamedBy id stages'.productive := by
    rw [hstaged.productive, hstaged'.productive]
    exact hsame.renamedBy.removeUnproductive hh hg
  have hrenamed₀ := hproductive.reachablePart (hstaged'.sound_productive hh hcovered').wellFormed
    (hstaged.sound_productive hg hcovered).wellFormed hstaged.reachable hstaged'.reachable
  -- The renaming grows at the two stages that introduce symbols.
  obtain ⟨f₁, heq₁, hrenamed₁⟩ := hrenamed₀.eliminateEpsilon hreachable'.wellFormed
    hreachable.wellFormed hreachable.covered hreachable'.covered
    (Nat.le_trans hstaged.growsTo.2.size_le hsize)
    (Nat.le_trans hstaged'.growsTo.2.size_le hsize')
  rw [← hstaged.epsilonFree, ← hstaged'.epsilonFree] at hrenamed₁
  have hrenamed₂ := hrenamed₁.unitFreeForm hepsilonFree'.wellFormed hepsilonFree.wellFormed
    hstaged.unitFree hstaged'.unitFree
  obtain ⟨name, hname⟩ := hstaged.splitBy hg hcovered hsize
  obtain ⟨name', hname'⟩ := hstaged'.splitBy hh hcovered' hsize'
  obtain ⟨f₂, heq₂, hcarries⟩ := hrenamed₂.exists_carriesNames hunitFree'.wellFormed
    hunitFree.wellFormed hname hname'
  have hrenamed₃ := (hrenamed₂.congr hunitFree.wellFormed heq₂).splitBy hunitFree'.wellFormed
    hunitFree.wellFormed hname hname' hcarries
  have hrenamed₄ := hrenamed₃.removeUnproductive hsplit'.wellFormed hsplit.wellFormed
  have hrenamed₅ := hrenamed₄.reachablePart hsplit'.wellFormed.removeUnproductive
    hsplit.wellFormed.removeUnproductive hstaged.cnf hstaged'.cnf
  refine ⟨f₂, hrenamed₅, fun s hs hkept => ?_⟩
  have hdeclared : s ∈ stages.unitFree.declared := by
    refine Or.inr ?_
    rwa [hstaged.unitFree.nonterminals]
  rw [← heq₂ hdeclared, ← heq₁ (Or.inr hs)]
  rfl

/-- Two covered, valid grammars with the same content are both found empty, or both normalized.
Their normal forms then differ by a renaming that leaves alone every nonterminal of the reachable
stage that outlives the elimination of epsilon rules. The tables need not be the same: the second
may have met more names. -/
theorem normalize_up_to_renaming (hsame : g.SameContent h) (hcovered : g.CoveredBy t)
    (hcovered' : h.CoveredBy u) (hvalid : g.validate t = .ok ()) (hvalid' : h.validate u = .ok ())
    (naming naming' : Naming) :
    ((g.normalize t naming).outcome = .ok (.emptyLanguage, t) ∧
        (h.normalize u naming').outcome = .ok (.emptyLanguage, u)) ∨
      ∃ stages t' stages' u', (g.normalize t naming).outcome = .ok (.cnf stages, t') ∧
        (h.normalize u naming').outcome = .ok (.cnf stages', u') ∧
        (t'.size ≤ UInt32.size → u'.size ≤ UInt32.size → ∃ f, stages.cnf.RenamedBy f stages'.cnf ∧
          ∀ s ∈ stages.reachable.nonterminals, s ∈ stages.epsilonFree.nonterminals → f s = s) := by
  have hg := (validate_eq_ok_iff.mp hvalid).1
  have hh := (validate_eq_ok_iff.mp hvalid').1
  have hlanguage : h.language = g.language := by
    have hwords := hsame.renamedBy.wordsOf_eq hh hg (Or.inr hg.start)
    rwa [hsame.renamedBy.start] at hwords
  by_cases hempty : g.language = ∅
  · exact Or.inl ⟨normalize_of_language_empty hvalid hempty naming,
      normalize_of_language_empty hvalid' (hlanguage.trans hempty) naming'⟩
  · have hword := Set.nonempty_iff_ne_empty.mpr hempty
    obtain ⟨stages, t', hresult, hstaged⟩ :=
      normalize_of_language_nonempty hcovered hvalid hword naming
    obtain ⟨stages', u', hresult', hstaged'⟩ :=
      normalize_of_language_nonempty hcovered' hvalid' (hlanguage ▸ hword) naming'
    refine Or.inr ⟨stages, t', stages', u', hresult, hresult', fun hsize hsize' => ?_⟩
    exact hstaged.renamedBy hsame hg hh hcovered hcovered' hstaged' hsize hsize'

/-- The same grammar with its rules in another order and one of them repeated. -/
def nestedShuffled : Grammar := { nested with rules := nested.rules.reverse ++ nested.rules }

/-- Other names for new symbols and another order of the rules make no difference but the names. -/
theorem normalize_nested_up_to_renaming : ∃ stages t' stages' u',
    (nested.normalize nestedTable {}).outcome = .ok (.cnf stages, t') ∧
      (nestedShuffled.normalize nestedTable { wrapperStem := "W" }).outcome =
        .ok (.cnf stages', u') ∧
      ∃ f, stages.cnf.RenamedBy f stages'.cnf := by
  have hsame : nested.SameContent nestedShuffled :=
    ⟨rfl, fun _ => Iff.rfl, fun _ => Iff.rfl, fun rule => by simp [nestedShuffled]⟩
  have hcovered : nested.CoveredBy nestedTable := by decide +kernel
  have hvalid : nested.validate nestedTable = .ok () := by decide +kernel
  have hcovered' : nestedShuffled.CoveredBy nestedTable := by decide +kernel
  have hvalid' : nestedShuffled.validate nestedTable = .ok () := by decide +kernel
  obtain ⟨stages, t', hresult, hsize⟩ := normalize_of_size (n := 7) hcovered hvalid
    (by decide +kernel) {} (by decide +kernel)
  obtain ⟨stages', u', hresult', hsize'⟩ := normalize_of_size (n := 7) hcovered' hvalid'
    (by decide +kernel) { wrapperStem := "W" } (by decide +kernel)
  rcases normalize_up_to_renaming hsame hcovered hcovered' hvalid hvalid' {}
      { wrapperStem := "W" } with
    ⟨hempty, _⟩ | ⟨stages₁, t₁, stages₂, t₂, hresult₁, hresult₂, hrenamed⟩
  · rw [hresult] at hempty
    cases hempty
  · rw [hresult] at hresult₁
    rw [hresult'] at hresult₂
    cases hresult₁
    cases hresult₂
    obtain ⟨f, hf, _⟩ := hrenamed (hsize.trans_le (by decide)) (hsize'.trans_le (by decide))
    exact ⟨stages, t', stages', u', hresult, hresult', f, hf⟩

/-- A nonterminal with the name of a wrapper has only an epsilon rule. -/
def dropped : Grammar where
  start := ⟨0⟩
  nonterminals := .ofList [⟨0⟩, ⟨1⟩]
  terminals := .ofList [⟨2⟩, ⟨3⟩]
  rules := [⟨⟨0⟩, [⟨2⟩, ⟨1⟩, ⟨3⟩]⟩, ⟨⟨1⟩, []⟩]

def droppedTable : SymbolTable := (SymbolTable.empty.internAll ["S", "T_a", "a", "b"]).2

/-- Tests for a nonterminal of the reachable stage and of the normal form. -/
def declaredStages (s : Symbol) : Normalized → Bool × Bool
  | .emptyLanguage => (false, false)
  | .cnf stages => (stages.reachable.isNonterminal s, stages.cnf.isNonterminal s)

/-- The dropped nonterminal of the reachable stage comes back as a wrapper in one normal form and
not in the other, so no renaming leaves it alone. -/
theorem dropped_not_fixed :
    dropped.CoveredBy droppedTable ∧ dropped.validate droppedTable = .ok () ∧
    ∃ stages t' stages' u', (dropped.normalize droppedTable {}).outcome = .ok (.cnf stages, t') ∧
      (dropped.normalize droppedTable { wrapperStem := "W_" }).outcome = .ok (.cnf stages', u') ∧
      t'.size ≤ UInt32.size ∧ u'.size ≤ UInt32.size ∧
      ¬∃ f, stages.cnf.RenamedBy f stages'.cnf ∧
        ∀ s ∈ stages.reachable.nonterminals, s ∈ stages.cnf.nonterminals → f s = s := by
  have hcovered : dropped.CoveredBy droppedTable := by decide +kernel
  have hvalid : dropped.validate droppedTable = .ok () := by decide +kernel
  have hword : dropped.isLanguageEmpty = false := by decide +kernel
  obtain ⟨stages, t', hresult, hsize⟩ :=
    normalize_of_size (n := 5) hcovered hvalid hword {} (by decide +kernel)
  obtain ⟨stages', u', hresult', hsize'⟩ :=
    normalize_of_size (n := 6) hcovered hvalid hword { wrapperStem := "W_" } (by decide +kernel)
  have hseen : (dropped.normalize droppedTable {}).outcome.toOption.map
      (fun result => declaredStages ⟨1⟩ result.1) = some (true, true) := by decide +kernel
  have hseen' : (dropped.normalize droppedTable { wrapperStem := "W_" }).outcome.toOption.map
      (fun result => declaredStages ⟨1⟩ result.1) = some (true, false) := by decide +kernel
  rw [hresult] at hseen
  rw [hresult'] at hseen'
  obtain ⟨hreachable, hcnf⟩ := Prod.mk.inj (Option.some.inj hseen)
  obtain ⟨_, hcnf'⟩ := Prod.mk.inj (Option.some.inj hseen')
  refine ⟨hcovered, hvalid, stages, t', stages', u', hresult, hresult',
    hsize.trans_le (by decide), hsize'.trans_le (by decide), ?_⟩
  rintro ⟨f, hrenamed, hfixes⟩
  have hmem := hrenamed.map_mem_nonterminals (s := ⟨1⟩) hcnf
  rw [hfixes ⟨1⟩ hreachable hcnf] at hmem
  exact absurd hmem (Bool.eq_false_iff.mp hcnf')

end Grammar

end Chomsky
