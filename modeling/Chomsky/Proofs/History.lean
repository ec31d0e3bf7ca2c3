import Chomsky.Proofs.Normalization
import Chomsky.Proofs.SplitCopies

/-!
# Normalization and the history of the table

A table may be shared, and have met names that the grammar at hand does not use:
those of other grammars, or those introduced by earlier runs. Such names change the
numbers of introduced symbols and nothing else. By their names, all stages are the
same: the start symbol, the sets of declared symbols, and the list of rules in its
order.
-/

namespace Chomsky

/-- The grammars have the same start name, the same declared names and the same list of rules. -/
structure NamedGrammar.Alike (g h : NamedGrammar) : Prop where
  start : g.start = h.start
  nonterminals : ∀ name, name ∈ g.nonterminals ↔ name ∈ h.nonterminals
  terminals : ∀ name, name ∈ g.terminals ↔ name ∈ h.terminals
  rules : g.rules = h.rules

namespace Grammar

variable {g h : Grammar} {t u t' u' : SymbolTable} {naming : Naming} {stages stages' : Stages}
  {s : Symbol}

/-- A grammar and its copy are the same by name. -/
theorem CopiedTo.alike (hcopied : g.CopiedTo t u h) (hg : g.WellFormed) :
    (g.named t).Alike (h.named u) := by
  have hname : ∀ s ∈ g.declared, u.nameOf (t.translate u s) = t.nameOf s := fun s hs =>
    (hcopied.shares s hs).nameOf_translate
  have hlisted : ∀ (table : SymbolTable) (set : SymbolSet) (name : String),
      name ∈ set.toList.map table.nameOf ↔ ∃ s ∈ set, table.nameOf s = name := by
    intro table set name
    simp only [List.mem_map, SymbolSet.mem_toList, SymbolSet.mem_iff]
  refine ⟨?_, fun name => ?_, fun name => ?_, ?_⟩
  · show t.nameOf g.start = u.nameOf h.start
    rw [← hcopied.start, hname _ (Or.inr hg.start)]
  · show name ∈ g.nonterminals.toList.map t.nameOf ↔ name ∈ h.nonterminals.toList.map u.nameOf
    rw [hlisted, hlisted]
    constructor
    · rintro ⟨s, hs, rfl⟩
      exact ⟨_, hcopied.renamedBy.map_mem_nonterminals hs, hname s (Or.inr hs)⟩
    · rintro ⟨y, hy, rfl⟩
      obtain ⟨s, hs, rfl⟩ := (hcopied.nonterminals y).mp hy
      exact ⟨s, hs, (hname s (Or.inr hs)).symm⟩
  · show name ∈ g.terminals.toList.map t.nameOf ↔ name ∈ h.terminals.toList.map u.nameOf
    rw [hlisted, hlisted]
    refine exists_congr fun s => ?_
    rw [hcopied.terminals]
    refine and_congr_right fun hs => ?_
    have hsame := hname s (Or.inl hs)
    rw [hcopied.fixes s hs] at hsame
    rw [hsame]
  · show g.rules.map (Rule.named t) = h.rules.map (Rule.named u)
    rw [hcopied.rules, List.map_map]
    exact List.map_congr_left fun rule hrule => (hcopied.named_map hg hrule).symm

/-- The elimination of epsilon rules adds at most a start symbol. -/
theorem mem_nonterminals_eliminateEpsilon
    (hs : s ∈ (g.eliminateEpsilon t naming).1.nonterminals) :
    s ∈ g.nonterminals ∨ s = (g.eliminateEpsilon t naming).1.start := by
  have hexpanded : (g.eliminateEpsilon t naming).1 =
      (g.expandEpsilon t naming).1.removeUnproductive := rfl
  by_cases hstart : g.start ∈ g.nullableSymbols
  · rw [hexpanded, expandEpsilon_of_nullable hstart] at hs ⊢
    rcases mem_nonterminals_removeUnproductive.mp hs with heq | ⟨hs, _⟩
    · exact Or.inr heq
    · exact (mem_nonterminals_prependStart.mp hs).symm
  · rw [hexpanded, expandEpsilon_of_not_nullable hstart] at hs ⊢
    rcases mem_nonterminals_removeUnproductive.mp hs with heq | ⟨hs, _⟩
    · exact Or.inr heq
    · exact Or.inl hs

/-- Stage by stage, a run over a table that has met more names yields copies. -/
theorem Computed.copiedTo (hcomputed : g.Computed t naming stages t')
    (hcomputed' : g.Computed u naming stages' u') (hstaged : g.Staged t naming stages t')
    (hstaged' : g.Staged u naming stages' u') (hg : g.WellFormed) (hcovered : g.CoveredBy t)
    (hgrows : t.GrowsTo u) (hsize : t'.size ≤ UInt32.size) (hsize' : u'.size ≤ UInt32.size) :
    List.Forall₂ (fun stage stage' => stage.CopiedTo t' u' stage') stages.toList
      stages'.toList := by
  have hcovered' := hcovered.grow hgrows
  obtain ⟨hgrows₁, hgrows₂⟩ := hstaged.growsTo
  obtain ⟨hgrows₁', hgrows₂'⟩ := hstaged'.growsTo
  have hbegins : t.GrowsTo t' := hgrows₁.trans hgrows₂
  have hbegins' : t.GrowsTo u' := hgrows.trans (hgrows₁'.trans hgrows₂')
  have hproductive : stages.productive.CopiedTo t' u' stages'.productive := by
    rw [hcomputed.productive, hcomputed'.productive]
    exact (hcovered.copiedTo hbegins hbegins').removeUnproductive hg hg
  have hsound := hstaged.sound_productive hg hcovered
  have hsound' := hstaged'.sound_productive hg hcovered'
  have hreachable := hproductive.removeUnreachable hsound.wellFormed hsound'.wellFormed
    hsound.covered hsound'.covered hcomputed.reachable hcomputed'.reachable
  have hsound₁ := hstaged.sound_reachable hg hcovered
  have hsound₁' := hstaged'.sound_reachable hg hcovered'
  have hepsilonFree : stages.epsilonFree.CopiedTo t' u' stages'.epsilonFree := by
    rw [hcomputed.epsilonFree, hcomputed'.epsilonFree]
    exact hreachable.eliminateEpsilon hsound₁.wellFormed hsound₁'.wellFormed hsound₁.covered
      hsound₁'.covered hgrows₂ hgrows₂' hsize hsize'
  have hsound₂ := hstaged.sound_epsilonFree hg hcovered hsize
  have hsound₂' := hstaged'.sound_epsilonFree hg hcovered' hsize'
  have hknown : ∀ s ∈ stages.epsilonFree.nonterminals,
      t.Covers s ∨ s = stages.epsilonFree.start := by
    rw [hcomputed.epsilonFree]
    intro s hs
    exact (mem_nonterminals_eliminateEpsilon hs).imp_left (hsound₁.covered.nonterminals s)
  have hunitFree := hepsilonFree.eliminateUnits hsound₂.wellFormed hsound₂'.wellFormed
    hsound₂.covered hsound₂'.covered (Nat.le_trans hgrows₂.size_le hsize)
    (Nat.le_trans hgrows₂'.size_le hsize') hbegins hbegins' hknown hcomputed.unitFree
    hcomputed'.unitFree
  have hsound₃ := hstaged.sound_unitFree hg hcovered hsize
  have hsound₃' := hstaged'.sound_unitFree hg hcovered' hsize'
  have htable : (stages.split t naming).table.GrowsTo t' := by
    rw [← hcomputed.table]
    exact SymbolTable.GrowsTo.refl t'
  have htable' : (stages'.split u naming).table.GrowsTo u' := by
    rw [← hcomputed'.table]
    exact SymbolTable.GrowsTo.refl u'
  have hsplit := hunitFree.binarize hsound₃.wellFormed hsound₃.covered hsound₃'.covered htable
    htable' hsize hsize'
  have hsound₄ := (hstaged.sound_split hg hcovered hsize)
  have hsound₄' := (hstaged'.sound_split hg hcovered' hsize')
  have huseful := hsplit.removeUnproductive hsound₄.wellFormed hsound₄'.wellFormed
  have hcnf : stages.cnf.CopiedTo t' u' stages'.cnf := by
    obtain ⟨useful, hresult, hcnf⟩ := hcomputed.cnf
    obtain ⟨useful', hresult', hcnf'⟩ := hcomputed'.cnf
    have hcovered₄ := hsound₄.covered.removeUnproductive
    have hcopied := huseful.removeUnreachable hsound₄.wellFormed.removeUnproductive
      hsound₄'.wellFormed.removeUnproductive hcovered₄ hsound₄'.covered.removeUnproductive hresult
      hresult'
    rw [hcnf, hcnf']
    refine hcopied.sort_dedup ?_
    exact hsound₄.wellFormed.removeUnproductive.reachablePart
      (reachablePart_of_removeUnreachable hcovered₄ hresult)
  exact .cons hproductive (.cons hreachable (.cons hepsilonFree (.cons hunitFree
    (.cons hcnf .nil))))

/-- Names that the table has met besides those of the grammar do not matter. Over a table with any
further names, the grammar is found empty as well, or it is normalized, and by name every stage
has the same start symbol, the same declared symbols and the same list of rules. -/
theorem normalize_ignores_history (hcovered : g.CoveredBy t) (hvalid : g.validate t = .ok ())
    (naming : Naming) (names : List String)
    (hsize : (t.internAll names).2.size ≤ UInt32.size) :
    ((g.normalize t naming).outcome = .ok (.emptyLanguage, t) ∧
        (g.normalize (t.internAll names).2 naming).outcome =
          .ok (.emptyLanguage, (t.internAll names).2)) ∨
      ∃ stages t' stages' u', (g.normalize t naming).outcome = .ok (.cnf stages, t') ∧
        (g.normalize (t.internAll names).2 naming).outcome = .ok (.cnf stages', u') ∧
        (t'.size ≤ UInt32.size → u'.size ≤ UInt32.size →
          List.Forall₂ (fun stage stage' => (stage.named t').Alike (stage'.named u')) stages.toList
            stages'.toList) := by
  have hgrows := t.growsTo_internAll names
  generalize (t.internAll names).2 = u at hgrows hsize ⊢
  obtain ⟨hg, htaken⟩ := validate_eq_ok_iff.mp hvalid
  have hcovered' := hcovered.grow hgrows
  have hvalid' : g.validate u = .ok () := by
    rw [validate_eq_ok_iff, isTaken_grow hcovered hgrows hsize]
    exact ⟨hg, htaken⟩
  by_cases hempty : g.language = ∅
  · exact Or.inl ⟨normalize_of_language_empty hvalid hempty naming,
      normalize_of_language_empty hvalid' hempty naming⟩
  · have hword := Set.nonempty_iff_ne_empty.mpr hempty
    obtain ⟨stages, t', hresult, hstaged⟩ :=
      normalize_of_language_nonempty hcovered hvalid hword naming
    obtain ⟨stages', u', hresult', hstaged'⟩ :=
      normalize_of_language_nonempty hcovered' hvalid' hword naming
    refine Or.inr ⟨stages, t', stages', u', hresult, hresult', fun hsize hsize' => ?_⟩
    have hcopied := (computed_of_normalize hresult).copiedTo (computed_of_normalize hresult')
      hstaged hstaged' hg hcovered hgrows hsize hsize'
    have hwell : ∀ stage ∈ stages.toList, stage.WellFormed := fun stage hstage =>
      (hstaged.sound hg hcovered hsize stage hstage).wellFormed
    refine ((List.forall₂_and_left _ _).mpr ⟨hwell, hcopied⟩).imp ?_
    exact fun stage stage' ⟨hstage, hcopied⟩ => hcopied.alike hstage

/-- Three of the four names that a run introduces were met before, in another order. -/
theorem normalize_nested_ignores_history : ∃ stages t' stages' u',
    (nested.normalize nestedTable {}).outcome = .ok (.cnf stages, t') ∧
      (nested.normalize (nestedTable.internAll ["H1", "c", "T_b", "S'"]).2 {}).outcome =
        .ok (.cnf stages', u') ∧
      List.Forall₂ (fun stage stage' => (stage.named t').Alike (stage'.named u')) stages.toList
        stages'.toList := by
  have hcovered : nested.CoveredBy nestedTable := by decide +kernel
  have hvalid : nested.validate nestedTable = .ok () := by decide +kernel
  have hlarger : (nestedTable.internAll ["H1", "c", "T_b", "S'"]).2.size = 7 := by decide +kernel
  obtain ⟨stages, t', hresult, hsize⟩ := normalize_nested
  obtain ⟨stages', u', hresult', hsize'⟩ := normalize_of_size (g := nested) (n := 8)
    (t := (nestedTable.internAll ["H1", "c", "T_b", "S'"]).2) (by decide +kernel)
    (by decide +kernel) (by decide +kernel) {} (by decide +kernel)
  rcases normalize_ignores_history hcovered hvalid {} ["H1", "c", "T_b", "S'"]
      (hlarger.trans_le (by decide)) with
    ⟨hempty, _⟩ | ⟨stages₁, t₁, stages₂, t₂, hresult₁, hresult₂, halike⟩
  · rw [hresult] at hempty
    cases hempty
  · rw [hresult] at hresult₁
    rw [hresult'] at hresult₂
    cases hresult₁
    cases hresult₂
    exact ⟨stages, t', stages', u', hresult, hresult',
      halike hsize (hsize'.trans_le (by decide))⟩

end Grammar

end Chomsky
