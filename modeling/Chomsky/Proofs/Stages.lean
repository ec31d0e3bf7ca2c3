import Chomsky.NormalForm.Pipeline
import Chomsky.Proofs.Binary
import Chomsky.Proofs.BinarySteps

/-!
# The stages of normalization

Normalization of a covered, valid grammar never fails. It finds the language
empty or passes through the stages, and each stage is related to the one before as
its transformation demands. Rules are compared as sets: sorting and dropping
repetitions do not matter. If the table stays within the numbers of symbols, every
stage is well-formed and has the language of the first grammar.
-/

namespace Chomsky

/-- Leaving out repetitions keeps the members. -/
theorem mem_dropRepeats {α : Type} [DecidableEq α] {a : α} {items : List α} :
    a ∈ dropRepeats items ↔ a ∈ items := by
  fun_induction dropRepeats items with
  | case1 => rfl
  | case2 => rfl
  | case3 b rest ih => rw [ih, List.mem_cons (l := b :: rest), List.mem_cons, or_self_left]
  | case4 b c rest hne ih => rw [List.mem_cons, ih, ← List.mem_cons]

/-- The grammars on the way to normal form, in order. -/
def Stages.toList (stages : Stages) : List Grammar :=
  [stages.productive, stages.reachable, stages.epsilonFree, stages.unitFree, stages.cnf]

/-- The table after the elimination of epsilon rules. -/
def Stages.epsilonTable (stages : Stages) (t : SymbolTable) (naming : Naming) : SymbolTable :=
  (stages.reachable.eliminateEpsilon t naming).2

/-- The run that splits the long rules. -/
def Stages.split (stages : Stages) (t : SymbolTable) (naming : Naming) : Binarization :=
  stages.unitFree.binarize { naming } (stages.epsilonTable t naming)

namespace Grammar

/-- Each stage comes from the one before by its transformation, and the last table is the one that
splitting leaves behind. -/
structure Staged (g : Grammar) (t : SymbolTable) (naming : Naming) (stages : Stages)
    (t' : SymbolTable) : Prop where
  productive : stages.productive = g.removeUnproductive
  reachable : stages.productive.ReachablePart stages.reachable
  epsilonFree : stages.epsilonFree = (stages.reachable.eliminateEpsilon t naming).1
  unitFree : stages.epsilonFree.UnitFreeForm stages.unitFree
  cnf : (stages.split t naming).grammar.removeUnproductive.ReachablePart stages.cnf
  table : t' = (stages.split t naming).table

variable {g h : Grammar} {t t' : SymbolTable} {naming : Naming} {stages : Stages}

/-! ### Normalization does not fail -/

/-- Sorting and dropping repetitions keep the set of rules. -/
theorem ReachablePart.sort_dedup (hpart : g.ReachablePart h) (t : SymbolTable) :
    g.ReachablePart (h.sort t).dedup :=
  { hpart with
    rules := fun rule => by
      rw [← hpart.rules]
      exact mem_dropRepeats.trans List.mem_mergeSort }

/-- The events do not matter for the removal of unproductive symbols. -/
theorem outcome_journalUnproductive {ε : Type} (g : Grammar) :
    (g.journalUnproductive : Journaled ε Grammar).outcome = .ok g.removeUnproductive := rfl

/-- The events do not matter for the removal of unreachable symbols. -/
theorem outcome_journalUnreachable (g : Grammar) (t : SymbolTable) :
    (g.journalUnreachable t).outcome = g.removeUnreachable t.size := by
  simp only [journalUnreachable, Journaled.outcome_bind, Journaled.outcome_ofExcept]
  cases g.removeUnreachable t.size <;> rfl

/-- The events do not matter for the elimination of unit rules. -/
theorem outcome_journalUnits (g : Grammar) (t : SymbolTable) :
    (g.journalUnits t).outcome = g.eliminateUnits t.size := by
  simp only [journalUnits, Journaled.outcome_bind, Journaled.outcome_ofExcept]
  cases g.eliminateUnits t.size <;> rfl

/-- The events do not matter for the elimination of empty rules. -/
theorem outcome_journalEpsilon {ε : Type} (g : Grammar) (t : SymbolTable) (naming : Naming) :
    (g.journalEpsilon t naming : Journaled ε (Grammar × SymbolTable)).outcome =
      .ok (g.eliminateEpsilon t naming) := by
  unfold journalEpsilon
  by_cases hstart : g.nullableSymbols.contains g.start = true
  · simp only [hstart, if_true]
    rfl
  · simp only [hstart]
    rfl

/-- The events do not matter for binarization. -/
theorem outcome_journalBinary {ε : Type} (g : Grammar) (memo : BinaryMemo) (t : SymbolTable) :
    (g.journalBinary memo t : Journaled ε Binarization).outcome = .ok (g.binarize memo t) := rfl

/-- The events do not matter for the removal of useless symbols. -/
theorem outcome_journalUseless (g : Grammar) (t : SymbolTable) :
    (g.journalUseless t).outcome = g.removeUseless t.size :=
  g.removeUnproductive.outcome_journalUnreachable t

/-- A covered grammar passes through all stages. -/
theorem journalStages_eq_ok (hcovered : g.CoveredBy t) (naming : Naming) :
    ∃ stages t', (g.journalStages t naming).outcome = .ok (stages, t') ∧
      g.Staged t naming stages t' := by
  obtain ⟨reachable, hreachable, hpart⟩ := removeUnreachable_eq_ok hcovered.removeUnproductive
  have hcovered₁ := hcovered.removeUnproductive.reachablePart hpart
  have hcovered₂ := hcovered₁.eliminateEpsilon naming
  obtain ⟨unitFree, hunitFree, hform⟩ := eliminateUnits_eq_ok hcovered₂
  have hbinary := (hform.coveredBy hcovered₂).binarize_new naming
  obtain ⟨useful, huseful, hpart'⟩ := removeUseless_eq_ok hbinary
  generalize hepsilon : reachable.eliminateEpsilon t naming = epsilon at *
  generalize hsplit : unitFree.binarize { naming } epsilon.2 = binary at *
  refine ⟨⟨g.removeUnproductive, reachable, epsilon.1, unitFree, (useful.sort binary.table).dedup⟩,
    binary.table, ?_, ?_⟩
  · have hbind : ∀ {α β : Type} (a : α) (f : α → Except RangeError β),
        (Except.ok a >>= f) = f a := fun _ _ => rfl
    simp only [journalStages, Journaled.outcome_bind, outcome_journalUnproductive,
      outcome_journalUnreachable, outcome_journalEpsilon, outcome_journalUnits,
      outcome_journalBinary, outcome_journalUseless, hbind, hreachable, hepsilon, hunitFree, hsplit,
      huseful]
    rfl
  · subst hepsilon hsplit
    exact ⟨rfl, hpart, rfl, hform, hpart'.sort_dedup _, rfl⟩

/-- A valid grammar without words has no normal form. -/
theorem normalize_of_language_empty (hvalid : g.validate t = .ok ()) (hempty : g.language = ∅)
    (naming : Naming) : (g.normalize t naming).outcome = .ok (.emptyLanguage, t) := by
  unfold normalize
  simp only [Journaled.outcome_bind, Journaled.outcome_mapError, Journaled.outcome_ofExcept, hvalid,
    isLanguageEmpty_iff.mpr hempty, if_true]
  rfl

/-- A covered, valid grammar with a word is normalized. -/
theorem normalize_of_language_nonempty (hcovered : g.CoveredBy t) (hvalid : g.validate t = .ok ())
    (hword : g.language.Nonempty) (naming : Naming) :
    ∃ stages t', (g.normalize t naming).outcome = .ok (.cnf stages, t') ∧
      g.Staged t naming stages t' := by
  obtain ⟨stages, t', hstages, hstaged⟩ := journalStages_eq_ok hcovered naming
  have hnot : ¬g.isLanguageEmpty = true := by
    rw [isLanguageEmpty_iff]
    exact hword.ne_empty
  refine ⟨stages, t', ?_, hstaged⟩
  unfold normalize
  rw [if_neg hnot]
  simp only [Journaled.outcome_bind, Journaled.outcome_mapError, Journaled.outcome_ofExcept, hvalid,
    hstages]
  rfl

/-- A closed run is known to succeed once the number of names at its end is evaluated. -/
theorem normalize_of_size {n : Nat} (hcovered : g.CoveredBy t) (hvalid : g.validate t = .ok ())
    (hword : g.isLanguageEmpty = false) (naming : Naming)
    (hsize : (g.normalize t naming).outcome.toOption.map (fun result => result.2.size) = some n) :
    ∃ stages t', (g.normalize t naming).outcome = .ok (.cnf stages, t') ∧ t'.size = n := by
  have hword' : g.language.Nonempty := by
    rw [← Bool.not_eq_true, isLanguageEmpty_iff] at hword
    exact Set.nonempty_iff_ne_empty.mpr hword
  obtain ⟨stages, t', hresult, _⟩ := normalize_of_language_nonempty hcovered hvalid hword' naming
  rw [hresult] at hsize
  exact ⟨stages, t', hresult, Option.some.inj hsize⟩

/-- Only a valid grammar comes out of normalization. -/
theorem validate_of_normalize {result : Normalized × SymbolTable}
    (hresult : (g.normalize t naming).outcome = .ok result) : g.validate t = .ok () := by
  cases hvalid : g.validate t with
  | ok => rfl
  | error e =>
    unfold normalize at hresult
    simp only [Journaled.outcome_bind, Journaled.outcome_mapError, Journaled.outcome_ofExcept,
      hvalid] at hresult
    cases hresult

/-- A covered grammar that was normalized is well-formed, has a word and passed through the
stages. -/
theorem staged_of_normalize (hcovered : g.CoveredBy t)
    (hresult : (g.normalize t naming).outcome = .ok (.cnf stages, t')) :
    g.WellFormed ∧ g.language.Nonempty ∧ g.Staged t naming stages t' := by
  have hvalid := validate_of_normalize hresult
  have hword : g.language.Nonempty := by
    by_contra hnone
    have hempty := Set.not_nonempty_iff_eq_empty.mp hnone
    rw [normalize_of_language_empty hvalid hempty] at hresult
    cases hresult
  obtain ⟨stages', t'', hresult', hstaged⟩ :=
    normalize_of_language_nonempty hcovered hvalid hword naming
  rw [hresult] at hresult'
  cases hresult'
  exact ⟨(validate_eq_ok_iff.mp hvalid).1, hword, hstaged⟩

/-! ### What holds at every stage -/

/-- A well-formed grammar over the table with the language of the first. -/
structure SoundStage (g : Grammar) (t : SymbolTable) (h : Grammar) : Prop where
  wellFormed : h.WellFormed
  covered : h.CoveredBy t
  language : h.language = g.language

/-- A sound stage stays sound in a larger table. -/
theorem SoundStage.grow (hstage : g.SoundStage t h) (hgrows : t.GrowsTo t') : g.SoundStage t' h :=
  { hstage with covered := hstage.covered.grow hgrows }

/-- A stage stays sound when unproductive symbols are removed. -/
theorem SoundStage.removeUnproductive (hstage : g.SoundStage t h) :
    g.SoundStage t h.removeUnproductive :=
  ⟨hstage.wellFormed.removeUnproductive, hstage.covered.removeUnproductive,
    h.language_removeUnproductive.trans hstage.language⟩

/-- The reachable part of a sound stage is sound. -/
theorem SoundStage.reachablePart {h' : Grammar} (hstage : g.SoundStage t h)
    (hpart : h.ReachablePart h') : g.SoundStage t h' :=
  ⟨hstage.wellFormed.reachablePart hpart, hstage.covered.reachablePart hpart,
    hpart.language_eq.trans hstage.language⟩

/-- A stage stays sound when empty rules are eliminated. -/
theorem SoundStage.eliminateEpsilon (hstage : g.SoundStage t h)
    (hsize : (h.eliminateEpsilon t naming).2.size ≤ UInt32.size) :
    g.SoundStage (h.eliminateEpsilon t naming).2 (h.eliminateEpsilon t naming).1 := by
  have hexpanded : g.SoundStage (h.expandEpsilon t naming).2 (h.expandEpsilon t naming).1 :=
    ⟨hstage.wellFormed.expandEpsilon hstage.covered hsize, hstage.covered.expandEpsilon,
      (language_expandEpsilon hstage.wellFormed hstage.covered hsize).trans hstage.language⟩
  exact hexpanded.removeUnproductive

/-- The form of a sound stage without unit rules is sound. -/
theorem SoundStage.unitFreeForm {h' : Grammar} (hstage : g.SoundStage t h)
    (hform : h.UnitFreeForm h') : g.SoundStage t h' :=
  ⟨hform.wellFormed hstage.wellFormed, hform.coveredBy hstage.covered,
    (hform.language_eq hstage.wellFormed).trans hstage.language⟩

/-- A stage stays sound when it is binarized. -/
theorem SoundStage.binarize (hstage : g.SoundStage t h)
    (hsize : (h.binarize { naming } t).table.size ≤ UInt32.size) :
    g.SoundStage (h.binarize { naming } t).table (h.binarize { naming } t).grammar := by
  obtain ⟨name, hsplit⟩ := splitBy_binarize hstage.wellFormed hstage.covered naming hsize
  exact ⟨hsplit.wellFormed hstage.wellFormed, hstage.covered.binarize_new naming,
    (hsplit.language_eq hstage.wellFormed).trans hstage.language⟩

namespace Staged

/-- The table only grows on the way. -/
theorem growsTo (hstaged : g.Staged t naming stages t') :
    t.GrowsTo (stages.epsilonTable t naming) ∧ (stages.epsilonTable t naming).GrowsTo t' := by
  refine ⟨growsTo_eliminateEpsilon _ _ _, ?_⟩
  rw [hstaged.table]
  exact stages.unitFree.growsTo_binarize _ _

section Covered

variable (hstaged : g.Staged t naming stages t') (hcovered : g.CoveredBy t)

include hstaged hcovered

/-- The first stage is covered by the table at the start. -/
theorem covered_productive : stages.productive.CoveredBy t :=
  hstaged.productive ▸ hcovered.removeUnproductive

private theorem covered_reachable : stages.reachable.CoveredBy t :=
  (hstaged.covered_productive hcovered).reachablePart hstaged.reachable

/-- The stage without empty rules is covered by the table that belongs to it. -/
theorem covered_epsilonFree : stages.epsilonFree.CoveredBy (stages.epsilonTable t naming) :=
  hstaged.epsilonFree ▸ (hstaged.covered_reachable hcovered).eliminateEpsilon naming

private theorem covered_unitFree : stages.unitFree.CoveredBy (stages.epsilonTable t naming) :=
  hstaged.unitFree.coveredBy (hstaged.covered_epsilonFree hcovered)

/-- The binarized grammar is covered by the table at the end. -/
theorem covered_split : (stages.split t naming).grammar.CoveredBy t' := by
  rw [hstaged.table]
  exact (hstaged.covered_unitFree hcovered).binarize_new naming

/-- The normal form is covered by the table at the end. -/
theorem covered_cnf : stages.cnf.CoveredBy t' :=
  (hstaged.covered_split hcovered).removeUnproductive.reachablePart hstaged.cnf

/-- Every stage is covered by the last table, however many names there are. -/
theorem covered : ∀ stage ∈ stages.toList, stage.CoveredBy t' := by
  obtain ⟨hgrows, hgrows'⟩ := hstaged.growsTo
  have hlast := hgrows.trans hgrows'
  simp only [Stages.toList, List.mem_cons, List.not_mem_nil, or_false]
  rintro stage (rfl | rfl | rfl | rfl | rfl)
  · exact (hstaged.covered_productive hcovered).grow hlast
  · exact (hstaged.covered_reachable hcovered).grow hlast
  · exact (hstaged.covered_epsilonFree hcovered).grow hgrows'
  · exact (hstaged.covered_unitFree hcovered).grow hgrows'
  · exact hstaged.covered_cnf hcovered

end Covered

section Sound

variable (hstaged : g.Staged t naming stages t') (hg : g.WellFormed) (hcovered : g.CoveredBy t)
  (hsize : t'.size ≤ UInt32.size)

include hstaged hg hcovered

/-- The first stage is sound. -/
theorem sound_productive : g.SoundStage t stages.productive := by
  have hstage : g.SoundStage t g := ⟨hg, hcovered, rfl⟩
  rw [hstaged.productive]
  exact hstage.removeUnproductive

/-- The second stage is sound. -/
theorem sound_reachable : g.SoundStage t stages.reachable :=
  (hstaged.sound_productive hg hcovered).reachablePart hstaged.reachable

include hsize

/-- The stage without empty rules is sound. -/
theorem sound_epsilonFree : g.SoundStage (stages.epsilonTable t naming) stages.epsilonFree := by
  have hsize' := Nat.le_trans hstaged.growsTo.2.size_le hsize
  rw [hstaged.epsilonFree]
  exact (hstaged.sound_reachable hg hcovered).eliminateEpsilon hsize'

/-- The stage without unit rules is sound. -/
theorem sound_unitFree : g.SoundStage (stages.epsilonTable t naming) stages.unitFree :=
  (hstaged.sound_epsilonFree hg hcovered hsize).unitFreeForm hstaged.unitFree

/-- The binarized grammar is sound. -/
theorem sound_split : g.SoundStage t' (stages.split t naming).grammar := by
  have hunitFree := hstaged.sound_unitFree hg hcovered hsize
  rw [hstaged.table] at hsize ⊢
  exact hunitFree.binarize hsize

/-- The normal form is sound. -/
theorem sound_cnf : g.SoundStage t' stages.cnf :=
  (hstaged.sound_split hg hcovered hsize).removeUnproductive.reachablePart hstaged.cnf

/-- Every stage is well-formed, covered by the last table, and has the language of the grammar. -/
theorem sound : ∀ stage ∈ stages.toList, g.SoundStage t' stage := by
  obtain ⟨hgrows, hgrows'⟩ := hstaged.growsTo
  have hlast := hgrows.trans hgrows'
  simp only [Stages.toList, List.mem_cons, List.not_mem_nil, or_false]
  rintro stage (rfl | rfl | rfl | rfl | rfl)
  · exact (hstaged.sound_productive hg hcovered).grow hlast
  · exact (hstaged.sound_reachable hg hcovered).grow hlast
  · exact (hstaged.sound_epsilonFree hg hcovered hsize).grow hgrows'
  · exact (hstaged.sound_unitFree hg hcovered hsize).grow hgrows'
  · exact hstaged.sound_cnf hg hcovered hsize

/-- The grammar with unit rules eliminated was split by some naming of its blocks. -/
theorem splitBy : ∃ name, stages.unitFree.SplitBy (stages.split t naming).grammar name := by
  have hunitFree := hstaged.sound_unitFree hg hcovered hsize
  rw [hstaged.table] at hsize
  exact splitBy_binarize hunitFree.wellFormed hunitFree.covered naming hsize

/-- From the elimination of epsilon rules on, only the start symbol may have one. -/
theorem onlyStartEmpty : stages.unitFree.OnlyStartEmpty ∧ stages.cnf.OnlyStartEmpty := by
  have hsize' := Nat.le_trans hstaged.growsTo.2.size_le hsize
  have hreachable := hstaged.sound_reachable hg hcovered
  have hepsilonFree : stages.epsilonFree.OnlyStartEmpty := by
    rw [hstaged.epsilonFree]
    have hexpanded :=
      onlyStartEmpty_expandEpsilon hreachable.wellFormed hreachable.covered hsize'
    exact hexpanded.removeUnproductive
  have hunitFree := hstaged.unitFree.onlyStartEmpty hepsilonFree
  obtain ⟨name, hsplit⟩ := hstaged.splitBy hg hcovered hsize
  have hwell := (hstaged.sound_unitFree hg hcovered hsize).wellFormed
  have hbinary := hsplit.onlyStartEmpty hwell hunitFree
  exact ⟨hunitFree, hbinary.removeUnproductive.reachablePart hstaged.cnf⟩

end Sound

end Staged

end Grammar

end Chomsky
