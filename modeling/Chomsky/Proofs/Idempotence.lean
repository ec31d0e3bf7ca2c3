import Chomsky.Proofs.ComputedStages
import Chomsky.Proofs.Restart

/-!
# Normalization of a normal form

Without an epsilon rule, every stage of a second run has the same content as the
normal form, and the rules come out in the same order. With an epsilon rule, the
second run puts a new start symbol in place of the old one. No other symbol is
replaced, and the rules are sorted anew because the new symbol has another name.
-/

namespace Chomsky

namespace Grammar

variable {g h : Grammar} {t t' : SymbolTable} {naming naming' : Naming} {stages : Stages}

/-! ### The stages of a second run -/

/-- From the unit-free grammar on, a run changes nothing if there are no long rules to split and
every nonterminal has a word. What is left of it is what its start symbol reaches. -/
theorem Staged.reachablePart_unitFree (hstaged : g.Staged t naming stages t') (hg : g.WellFormed)
    (hcovered : g.CoveredBy t) (hsize : t'.size ≤ UInt32.size)
    (hshape : ∀ rule ∈ stages.unitFree.rules, rule.rhs.length ≤ 1 ∨
      ∃ b ∈ stages.unitFree.nonterminals, ∃ c ∈ stages.unitFree.nonterminals, rule.rhs = [b, c])
    (hwords : ∀ s ∈ stages.unitFree.nonterminals, (stages.unitFree.wordsOf s).Nonempty) :
    stages.unitFree.ReachablePart stages.cnf := by
  have hunitFree := (hstaged.sound_unitFree hg hcovered hsize).wellFormed
  obtain ⟨name, hsplit⟩ := hstaged.splitBy hg hcovered hsize
  have hsame := hsplit.sameContent hunitFree hshape
  have hsplitWords : ∀ s ∈ (stages.split t naming).grammar.nonterminals,
      ((stages.split t naming).grammar.wordsOf s).Nonempty := by
    intro s hs
    have hs' := (hsame.nonterminals s).mpr hs
    rw [hsame.wordsOf_eq hunitFree (Or.inr hs')]
    exact hwords s hs'
  have hproductive := sameContent_removeUnproductive (hsame.wellFormed hunitFree) hsplitWords
  exact (hsame.trans hproductive).reachablePart hstaged.cnf

/-- The first two stages of a trim normal form have its content. -/
theorem Staged.sameContent_reachable (hstaged : g.Staged t naming stages t') (hg : g.TrimNormal) :
    g.SameContent stages.reachable := by
  have hproductive := sameContent_removeUnproductive hg.wellFormed hg.words
  rw [← hstaged.productive] at hproductive
  have hreached := (hproductive.trimNormal hg).reached
  have hreachable := hstaged.reachable.sameContent (hproductive.wellFormed hg.wellFormed) hreached
  exact hproductive.trans hreachable

/-- Without an epsilon rule, every stage of a trim normal form has its content. -/
theorem Staged.sameContent_cnf (hstaged : g.Staged t naming stages t') (hg : g.TrimNormal)
    (hcovered : g.CoveredBy t) (hsize : t'.size ≤ UInt32.size)
    (hproper : ∀ rule ∈ g.rules, rule.rhs ≠ []) : g.SameContent stages.cnf := by
  have hreachable := hstaged.sameContent_reachable hg
  have hnormal := (hreachable.trimNormal hg).normal
  have honly : stages.reachable.OnlyStartEmpty := hnormal.epsilon
  have hnot : stages.reachable.start ∉ stages.reachable.nullableSymbols := by
    rw [mem_nullableSymbols_iff, honly.nil_mem_wordsOf_iff, ← hreachable.rules]
    exact fun hrule => hproper _ hrule rfl
  have hexpanded : stages.reachable.SameContent stages.reachable.expandNullable := by
    refine ⟨rfl, fun _ => Iff.rfl, fun _ => Iff.rfl, fun rule => ?_⟩
    rw [hnormal.mem_rules_expandNullable]
    exact ⟨fun hrule => ⟨hrule, hproper rule ((hreachable.rules rule).mpr hrule)⟩, And.left⟩
  have hexpanded' := (hreachable.trans hexpanded).trimNormal hg
  have hproductive := sameContent_removeUnproductive hexpanded'.wellFormed hexpanded'.words
  have hepsilonFree : stages.epsilonFree = stages.reachable.expandNullable.removeUnproductive := by
    rw [hstaged.epsilonFree, Grammar.eliminateEpsilon, expandEpsilon_of_not_nullable hnot]
  rw [← hepsilonFree] at hproductive
  have hsame := (hreachable.trans hexpanded).trans hproductive
  have htrim := hsame.trimNormal hg
  have hunit := hstaged.unitFree.sameContent htrim.wellFormed fun rule hrule =>
    htrim.normal.not_isUnit htrim.wellFormed hrule
  have htrim' := hunit.trimNormal htrim
  have hpart := hstaged.reachablePart_unitFree hg.wellFormed hcovered hsize
    (fun rule hrule => htrim'.normal.shape hrule) htrim'.words
  exact (hsame.trans hunit).trans (hpart.sameContent htrim'.wellFormed htrim'.reached)

/-- With an epsilon rule, the new start symbol of the run is put in place of the old one. -/
theorem Staged.sameContent_replaceStart (hstaged : g.Staged t naming stages t') (hg : g.TrimNormal)
    (hcovered : g.CoveredBy t) (hsize : t'.size ≤ UInt32.size) (hempty : ⟨g.start, []⟩ ∈ g.rules) :
    g.isDeclared stages.epsilonFree.start = false ∧
      (g.replaceStart stages.epsilonFree.start).SameContent stages.cnf := by
  have hreachable := hstaged.sameContent_reachable hg
  have hr := hreachable.trimNormal hg
  have hempty' : ⟨stages.reachable.start, []⟩ ∈ stages.reachable.rules := by
    rw [← hreachable.rules, ← hreachable.start]
    exact hempty
  have hnullable : stages.reachable.start ∈ stages.reachable.nullableSymbols :=
    mem_nullableSymbols_iff.mpr (stages.reachable.fitsWords_wordsOf.rules _ hempty' rfl)
  have hepsilonFree : stages.epsilonFree =
      stages.reachable.restart (stages.reachable.newStart t naming).1 := by
    rw [hstaged.epsilonFree, Grammar.eliminateEpsilon, expandEpsilon_of_nullable hnullable]
    rfl
  have hnew : stages.reachable.isDeclared stages.epsilonFree.start = false := by
    have hsize' := Nat.le_trans hstaged.growsTo.2.size_le hsize
    rw [Stages.epsilonTable, Grammar.eliminateEpsilon,
      expandEpsilon_of_nullable hnullable] at hsize'
    rw [hepsilonFree]
    exact not_isDeclared_newStart (hstaged.sound_reachable hg.wellFormed hcovered).covered hsize'
  have hform := hstaged.unitFree
  have hunitFree := (hstaged.sound_unitFree hg.wellFormed hcovered hsize).wellFormed
  have hstart : (stages.reachable.newStart t naming).1 = stages.epsilonFree.start := by
    rw [hepsilonFree]
    rfl
  rw [hstart] at hepsilonFree
  generalize stages.epsilonFree.start = x at hepsilonFree hnew ⊢
  rw [hepsilonFree] at hform
  have hpart : stages.unitFree.ReachablePart stages.cnf :=
    hstaged.reachablePart_unitFree hg.wellFormed hcovered hsize
      (hr.shape_unitFree hempty' hnew hform hunitFree) (hr.words_unitFree hnew hform)
  have hsame := hr.sameContent_replaceStart hempty' hnew hform hpart
  refine ⟨?_, (hreachable.replaceStart x).trans hsame⟩
  rwa [isDeclared_eq_false_iff, hreachable.terminals, hreachable.nonterminals,
    ← isDeclared_eq_false_iff]

/-! ### Two normal forms in comparison -/

/-- The grammars have the same start symbol, the same declared symbols and the same list of
rules. -/
structure Agrees (g h : Grammar) : Prop where
  start : g.start = h.start
  nonterminals : ∀ s, s ∈ g.nonterminals ↔ s ∈ h.nonterminals
  terminals : ∀ s, s ∈ g.terminals ↔ s ∈ h.terminals
  rules : g.rules = h.rules

/-- Rules that are listed by name are the same list if they have the same members. -/
theorem SameContent.agrees (hsame : g.SameContent h) (hcovered : h.CoveredBy t)
    (hlisted : ListedByName t g.rules) (hlisted' : ListedByName t h.rules) : g.Agrees h where
  start := hsame.start
  nonterminals := hsame.nonterminals
  terminals := hsame.terminals
  rules := (hlisted'.eq_of_mem_iff hlisted hcovered.rules fun rule => (hsame.rules rule).symm).symm

private theorem sameContent_sort (g : Grammar) (t : SymbolTable) : (g.sort t).SameContent g :=
  ⟨rfl, fun _ => Iff.rfl, fun _ => Iff.rfl, fun _ => List.mem_mergeSort⟩

/-- A second run normalizes a valid normal form again. Without an epsilon rule it gives back the
same start symbol, the same declared symbols and the same list of rules. With an epsilon rule it
puts one new start symbol in place of the old one, and sorts the rules anew. -/
theorem normalize_cnf_again (hcovered : g.CoveredBy t)
    (hresult : (g.normalize t naming).outcome = .ok (.cnf stages, t'))
    (hsize : t'.size ≤ UInt32.size) (hvalid : stages.cnf.validate t' = .ok ())
    (naming' : Naming) :
    ∃ stages' u, (stages.cnf.normalize t' naming').outcome = .ok (.cnf stages', u) ∧
      (u.size ≤ UInt32.size →
        ((∀ rule ∈ stages.cnf.rules, rule.rhs ≠ []) → stages.cnf.Agrees stages'.cnf) ∧
        (⟨stages.cnf.start, []⟩ ∈ stages.cnf.rules →
          stages.cnf.isDeclared stages'.epsilonFree.start = false ∧
          ((stages.cnf.replaceStart stages'.epsilonFree.start).sort u).Agrees stages'.cnf)) := by
  obtain ⟨hwell, hword, hstaged⟩ := staged_of_normalize hcovered hresult
  have hsound := hstaged.sound_cnf hwell hcovered hsize
  have hcnf := hstaged.trimNormal hwell hword hcovered hsize
  have hlisted := listedByName_cnf hcovered hresult hsize
  obtain ⟨stages', u, hresult', hstaged'⟩ := normalize_of_language_nonempty hsound.covered hvalid
    (hsound.language ▸ hword) naming'
  refine ⟨stages', u, hresult', fun hsize' => ?_⟩
  have hcovered' := (hstaged'.sound_cnf hcnf.wellFormed hsound.covered hsize').covered
  have hlisted' := listedByName_cnf hsound.covered hresult' hsize'
  obtain ⟨hgrows, hgrows'⟩ := hstaged'.growsTo
  refine ⟨fun hproper => ?_, fun hempty => ?_⟩
  · have hsame := hstaged'.sameContent_cnf hcnf hsound.covered hsize' hproper
    exact hsame.agrees hcovered' (hlisted.grow (hgrows.trans hgrows') hsound.covered.rules) hlisted'
  · obtain ⟨hnew, hsame⟩ := hstaged'.sameContent_replaceStart hcnf hsound.covered hsize' hempty
    have hnodup := nodup_rules_replaceStart hcnf.wellFormed hnew hlisted.nodup
    refine ⟨hnew, ?_⟩
    exact ((sameContent_sort _ u).trans hsame).agrees hcovered' (listedByName_mergeSort hnodup)
      hlisted'

/-- The grammar of the empty word and a single letter. -/
def optional : Grammar where
  start := ⟨0⟩
  nonterminals := .ofList [⟨0⟩]
  terminals := .ofList [⟨1⟩]
  rules := [⟨⟨0⟩, [⟨1⟩]⟩, ⟨⟨0⟩, []⟩]

/-- The names of its symbols. -/
def optionalTable : SymbolTable := (SymbolTable.empty.internAll ["S", "a"]).2

/-- The rules of its normal form in ascending order of names. -/
def optionalRules : List Rule := [⟨⟨2⟩, []⟩, ⟨⟨2⟩, [⟨1⟩]⟩]

/-- The rules that a run sorts at its end, whether those of the normal form are in order, and the
number of names after these were normalized again. -/
def sizeAgain (naming : Naming) : Normalized × SymbolTable → Option (List Rule × Bool × Option Nat)
  | (.emptyLanguage, _) => none
  | (.cnf stages, t) =>
    ((stages.split optionalTable {}).grammar.removeUseless t.size).toOption.map fun useful =>
      (useful.rules, decide (optionalRules.Pairwise fun r₁ r₂ => r₁.leByName t r₂ = true),
        ((useful.withRules optionalRules).normalize t naming).outcome.toOption.map
          fun result => result.2.size)

/-- The normal form of a grammar with the empty word gets another start symbol. -/
theorem normalize_optional_cnf_again : ∃ stages t' stages' u,
    (optional.normalize optionalTable {}).outcome = .ok (.cnf stages, t') ∧
      (stages.cnf.normalize t' { startSuffix := "_" }).outcome = .ok (.cnf stages', u) ∧
      stages.cnf.isDeclared stages'.epsilonFree.start = false ∧
      ((stages.cnf.replaceStart stages'.epsilonFree.start).sort u).Agrees stages'.cnf := by
  have hcovered : optional.CoveredBy optionalTable := by decide +kernel
  obtain ⟨stages, t', hresult, hsize⟩ := normalize_of_size (n := 3) hcovered (by decide +kernel)
    (by decide +kernel) {} (by decide +kernel)
  have hsize : t'.size ≤ UInt32.size := hsize.trans_le (by decide)
  obtain ⟨hwell, _, hstaged⟩ := staged_of_normalize hcovered hresult
  have hsound := hstaged.sound_cnf hwell hcovered hsize
  have hnames : (optional.normalize optionalTable {}).outcome.toOption.map (fun result =>
      result.2.names) = some ["S", "a", "S'"] := by decide +kernel
  rw [hresult] at hnames
  have hvalid : stages.cnf.validate t' = .ok () := by
    refine validate_eq_ok_iff.mpr ⟨hsound.wellFormed, Bool.eq_false_iff.mpr fun htaken => ?_⟩
    have hmem := mem_names_of_isTaken htaken
    rw [show t'.names = _ from Option.some.inj hnames] at hmem
    exact absurd hmem (by decide)
  have hempty : ⟨stages.cnf.start, []⟩ ∈ stages.cnf.rules := by
    have honly : stages.cnf.OnlyStartEmpty := (hstaged.onlyStartEmpty hwell hcovered hsize).2
    have hword : [] ∈ optional.language :=
      optional.fitsWords_wordsOf.rules ⟨⟨0⟩, []⟩ (by decide) rfl
    rwa [← hsound.language, language, honly.nil_mem_wordsOf_iff] at hword
  have hsizes : (optional.normalize optionalTable {}).outcome.toOption.bind
      (sizeAgain { startSuffix := "_" }) = some (optionalRules.reverse, true, some 4) := by
    decide +kernel
  obtain ⟨useful, huseful, hcnf⟩ := (computed_of_normalize hresult).cnf
  obtain ⟨stages', u, hresult', hagain⟩ :=
    normalize_cnf_again hcovered hresult hsize hvalid { startSuffix := "_" }
  simp only [hresult, Except.toOption, Option.bind_some, sizeAgain, huseful, Option.map_some,
    Option.some.injEq, Prod.mk.injEq, decide_eq_true_eq] at hsizes
  obtain ⟨hrules, hsorted, hu⟩ := hsizes
  -- Sorting the two rules puts them in the other order.
  have hlist : optionalRules = stages.cnf.rules := by
    refine ((listedByName_cnf hcovered hresult hsize).eq_of_mem_iff ⟨hsorted, by decide⟩
      hsound.covered.rules fun rule => ?_).symm
    have hmem : rule ∈ (useful.sort t').dedup.rules ↔ rule ∈ useful.rules :=
      mem_dropRepeats.trans List.mem_mergeSort
    rw [hcnf, hmem, hrules, List.mem_reverse]
  have hsame : useful.withRules optionalRules = stages.cnf := by
    rw [hlist, hcnf]
    rfl
  have hbound : u.size ≤ UInt32.size := by
    rw [hsame, hresult'] at hu
    exact (Option.some.inj hu).trans_le (by decide)
  exact ⟨stages, t', stages', u, hresult, hresult', (hagain hbound).2 hempty⟩

end Grammar

end Chomsky
