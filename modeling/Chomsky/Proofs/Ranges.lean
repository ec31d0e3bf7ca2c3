import Chomsky.Analysis.Report
import Chomsky.Proofs.BinarySteps
import Chomsky.Proofs.ComputedStages

/-!
# Ranges of relations

A relation between symbols has a row and a column for each name that the table has
at the time. If the table covers a grammar, all pairs that enter its relations and
all rows that are read are within that range, so no analysis and no transformation
of it fails for a symbol out of range. Each result is covered by the table as the
transformation leaves it. The number of names does not matter: also where numbers
wrap around, a symbol stays below the size of its table.
-/

namespace Chomsky

variable {t t' : SymbolTable}

private theorem SymbolTable.covers_of_mem_symbols {s : Symbol} (hs : s ∈ t.symbols) :
    t.Covers s := by
  obtain ⟨i, hi, rfl⟩ := List.mem_map.mp hs
  have hlt : i < t.size := List.mem_range.mp hi
  have hle : (Symbol.ofIndex i).index ≤ i := by
    rw [Symbol.index_ofIndex]
    exact Nat.mod_le _ _
  exact Nat.lt_of_le_of_lt hle hlt

namespace SymbolRelation

/-- The relation is on the symbols below `size`, and no spare position of a row is set. -/
structure Fits (r : SymbolRelation) (size : Nat) : Prop where
  size_eq : r.size = size
  lt_size : ∀ i j, r.Related i j → j < size

variable {r : SymbolRelation} {size : Nat}

private theorem ofPairs_fits {pairs : List (Symbol × Symbol)}
    (hpairs : ∀ p ∈ pairs, p.1.index < size ∧ p.2.index < size) :
    ∃ r, ofPairs size pairs = .ok r ∧ r.Fits size := by
  obtain ⟨r, hok, hsize, hrelated⟩ := ofPairs_eq_ok hpairs
  refine ⟨r, hok, hsize, fun i j hij => ?_⟩
  obtain ⟨a, b, hmem, rfl, rfl⟩ := (hrelated i j).mp hij
  exact (hpairs _ hmem).2

/-- A transitive closure fits the same size. -/
theorem Fits.transitiveClosure (hr : r.Fits size) : r.transitiveClosure.Fits size where
  size_eq := r.size_transitiveClosure.trans hr.size_eq
  lt_size i j hij := by
    rw [related_transitiveClosure] at hij
    cases hij with
    | single hlast => exact hr.lt_size _ _ hlast
    | tail _ hlast => exact hr.lt_size _ _ hlast

/-- A reflexive closure fits the same size. -/
theorem Fits.reflexiveClosure (hr : r.Fits size) : r.reflexiveClosure.Fits size where
  size_eq := r.size_reflexiveClosure.trans hr.size_eq
  lt_size i j hij := by
    rcases (r.related_reflexiveClosure i j).mp hij with hij | ⟨hi, rfl⟩
    · exact hr.lt_size i j hij
    · exact hi.trans_eq hr.size_eq

private theorem rowsOf_eq_ok {r : SymbolRelation} {symbols : List Symbol}
    (hsymbols : ∀ s ∈ symbols, s.index < r.size) : ∃ rows, r.rowsOf symbols = .ok rows := by
  induction symbols with
  | nil => exact ⟨[], rfl⟩
  | cons s rest ih =>
    obtain ⟨row, hrow, _⟩ := row_eq_ok (hsymbols s List.mem_cons_self)
    obtain ⟨rows, hrows⟩ := ih fun x hx => hsymbols x (List.mem_cons_of_mem s hx)
    refine ⟨row :: rows, ?_⟩
    rw [rowsOf] at hrows ⊢
    rw [List.mapM_cons, hrow, hrows]
    rfl

end SymbolRelation

namespace Grammar

variable {g h : Grammar} {naming : Naming} {stages : Stages}

/-- The pairs that rules of the grammar enter into relations on the symbols below `size`, and the
rows that are read from them, are all in range. -/
structure AccessesWithin (g : Grammar) (size : Nat) : Prop where
  derivation : ∀ rules ⊆ g.rules, ∀ p ∈ derivationPairs rules, p.1.index < size ∧ p.2.index < size
  unit : ∀ p ∈ g.unitPairs, p.1.index < size ∧ p.2.index < size
  startRow : g.start.index < size
  nonterminalRows : ∀ s ∈ g.nonterminals, s.index < size

private theorem CoveredBy.accessesWithin (hg : g.CoveredBy t) : g.AccessesWithin t.size where
  derivation _ hsubset _ hp :=
    lt_size_of_mem_derivationPairs (fun rule hrule => hg.rules rule (hsubset hrule)) hp
  unit _ hp := hg.lt_size_of_mem_unitPairs hp
  startRow := hg.start
  nonterminalRows := hg.nonterminals

/-! ### Analyses -/

private theorem CoveredBy.directDerivation_eq_ok (hg : g.CoveredBy t) :
    ∃ r, g.directDerivation t.size = .ok r ∧ r.Fits t.size :=
  SymbolRelation.ofPairs_fits fun _ hp => lt_size_of_mem_derivationPairs hg.rules hp

private theorem CoveredBy.reachability_eq_ok (hg : g.CoveredBy t) :
    ∃ r, g.reachability t.size = .ok r ∧ r.Fits t.size := by
  obtain ⟨r, hok, hfits⟩ := hg.directDerivation_eq_ok
  have hclosed : g.reachability t.size = (g.directDerivation t.size).map _ := rfl
  exact ⟨r.transitiveClosure, by rw [hclosed, hok]; rfl, hfits.transitiveClosure⟩

/-- The unit derivations of a covered grammar are computed without a failure. -/
theorem CoveredBy.unitDerivation_eq_ok (hg : g.CoveredBy t) :
    ∃ r, g.unitDerivation t.size = .ok r ∧ r.Fits t.size := by
  obtain ⟨r, hok, hfits⟩ :=
    SymbolRelation.ofPairs_fits fun _ hp => hg.lt_size_of_mem_unitPairs hp
  refine ⟨r.transitiveClosure.reflexiveClosure, ?_, hfits.transitiveClosure.reflexiveClosure⟩
  rw [unitDerivation, hok]
  rfl

/-- The useful symbols of a covered grammar are computed without a failure. -/
theorem CoveredBy.usefulness_eq_ok (hg : g.CoveredBy t) :
    ∃ u, Usefulness.ofGrammar g t.size = .ok u ∧ u.productive = g.productiveSymbols ∧
      ∀ s ∈ u.reachable, t.Covers s := by
  have hrules : ∀ rule ∈ g.rules.filter (Usefulness.isProductiveRule g.productiveSymbols),
      rule.CoveredBy t := fun rule hrule => hg.rules rule (List.mem_filter.mp hrule).1
  obtain ⟨set, hok, hmem⟩ := reachableFrom_eq_ok hrules hg.start
  refine ⟨⟨g.productiveSymbols, set⟩, by rw [Usefulness.ofGrammar, hok]; rfl, rfl, fun s hs => ?_⟩
  exact Reaches.covers hrules ((hmem s).mp hs) hg.start

/-- The report on a covered grammar is made without a failure. -/
theorem CoveredBy.usefulnessReport_eq_ok (hg : g.CoveredBy t) :
    ∃ report, g.usefulnessReport t = .ok report := by
  obtain ⟨u, hok, _⟩ := hg.usefulness_eq_ok
  exact ⟨_, by rw [usefulnessReport, hok]; rfl⟩

/-- All analyses of a covered grammar succeed. -/
theorem CoveredBy.analyze_eq_ok (hg : g.CoveredBy t) :
    ∃ report, g.analyze t = .ok report ∧ report.productive = g.productiveSymbols ∧
      report.nullable = g.nullableSymbols ∧ g.reachableSymbols t.size = .ok report.reachable ∧
      g.usefulnessReport t = .ok report.usefulness := by
  obtain ⟨direct, hdirect, hdirectFits⟩ := hg.directDerivation_eq_ok
  obtain ⟨reachability, hreachability, hreachabilityFits⟩ := hg.reachability_eq_ok
  obtain ⟨unit, hunit, hunitFits⟩ := hg.unitDerivation_eq_ok
  obtain ⟨reachable, hreachable, _⟩ := reachableSymbols_eq_ok hg
  obtain ⟨usefulness, husefulness⟩ := hg.usefulnessReport_eq_ok
  have hrows : ∀ r : SymbolRelation, r.Fits t.size → ∃ rows, r.rowsOf t.symbols = .ok rows :=
    fun r hr => SymbolRelation.rowsOf_eq_ok fun s hs =>
      (SymbolTable.covers_of_mem_symbols hs).trans_eq hr.size_eq.symm
  obtain ⟨directRows, hdirectRows⟩ := hrows direct hdirectFits
  obtain ⟨reachabilityRows, hreachabilityRows⟩ := hrows reachability hreachabilityFits
  obtain ⟨unitRows, hunitRows⟩ := hrows unit hunitFits
  have hanalyze : ∃ report, g.analyze t = .ok report ∧ report.productive = g.productiveSymbols ∧
      report.nullable = g.nullableSymbols ∧ report.reachable = reachable ∧
      report.usefulness = usefulness := by
    simp only [analyze, bind_eq_ok_iff]
    exact ⟨_, ⟨direct, hdirect, reachability, hreachability, unit, hunit, reachable, hreachable,
      directRows, hdirectRows, reachabilityRows, hreachabilityRows, unitRows, hunitRows, usefulness,
      husefulness, rfl⟩, rfl, rfl, rfl, rfl⟩
  obtain ⟨report, hok, hproductive, hnullable, rfl, rfl⟩ := hanalyze
  exact ⟨report, hok, hproductive, hnullable, hreachable, husefulness⟩

/-! ### Transformations -/

/-- The unreachable symbols of a covered grammar are removed without a failure. -/
theorem CoveredBy.removeUnreachable_eq_ok (hg : g.CoveredBy t) :
    ∃ h, g.removeUnreachable t.size = .ok h ∧ h.CoveredBy t := by
  obtain ⟨h, hok, hpart⟩ := Grammar.removeUnreachable_eq_ok hg
  exact ⟨h, hok, hg.reachablePart hpart⟩

/-- The useless symbols of a covered grammar are removed without a failure. -/
theorem CoveredBy.removeUseless_eq_ok (hg : g.CoveredBy t) :
    ∃ h, g.removeUseless t.size = .ok h ∧ h.CoveredBy t :=
  hg.removeUnproductive.removeUnreachable_eq_ok

/-- The unit rules of a covered grammar are eliminated without a failure. -/
theorem CoveredBy.eliminateUnits_eq_ok (hg : g.CoveredBy t) :
    ∃ h, g.eliminateUnits t.size = .ok h ∧ h.CoveredBy t := by
  obtain ⟨h, hok, hform⟩ := Grammar.eliminateUnits_eq_ok hg
  exact ⟨h, hok, hform.coveredBy hg⟩

/-! ### Normalization -/

/-- Each stage is computed from the one before within the range of the table of that moment, and
the last table covers all stages. -/
structure StagesInRange (g : Grammar) (t : SymbolTable) (naming : Naming) (stages : Stages)
    (t' : SymbolTable) : Prop where
  computed : g.Computed t naming stages t'
  grows : t.GrowsTo t'
  covered : ∀ stage ∈ stages.toList, stage.CoveredBy t'
  reachability : stages.productive.AccessesWithin t.size
  units : stages.epsilonFree.AccessesWithin (stages.epsilonTable t naming).size
  usefulness : (stages.split t naming).grammar.removeUnproductive.AccessesWithin t'.size

/-- Normalization of a covered grammar fails only if the grammar is not valid. -/
theorem CoveredBy.normalize_in_range (hg : g.CoveredBy t) (naming : Naming) :
    (∃ e, g.validate t = .error e ∧ (g.normalize t naming).outcome = .error (.invalid e)) ∨
      (g.normalize t naming).outcome = .ok (.emptyLanguage, t) ∨
      ∃ stages t', (g.normalize t naming).outcome = .ok (.cnf stages, t') ∧
        g.StagesInRange t naming stages t' := by
  cases hvalid : g.validate t with
  | error e =>
    refine Or.inl ⟨e, rfl, ?_⟩
    simp only [normalize, Journaled.outcome_bind, Journaled.outcome_mapError,
      Journaled.outcome_ofExcept, hvalid]
    rfl
  | ok =>
    refine Or.inr ?_
    by_cases hempty : g.language = ∅
    · exact Or.inl (normalize_of_language_empty hvalid hempty naming)
    · obtain ⟨stages, t', hresult, hstaged⟩ := normalize_of_language_nonempty hg hvalid
        (Set.nonempty_iff_ne_empty.mpr hempty) naming
      obtain ⟨hgrows, hgrows'⟩ := hstaged.growsTo
      exact Or.inr ⟨stages, t', hresult, computed_of_normalize hresult, hgrows.trans hgrows',
        hstaged.covered hg, (hstaged.covered_productive hg).accessesWithin,
        (hstaged.covered_epsilonFree hg).accessesWithin,
        (hstaged.covered_split hg).removeUnproductive.accessesWithin⟩

/-! ### All operations -/

/-- No analysis and no transformation of the grammar leaves the range of its table, and the table
covers each result. -/
structure StaysInRange (g : Grammar) (t : SymbolTable) : Prop where
  accesses : g.AccessesWithin t.size
  productiveAccesses : g.removeUnproductive.AccessesWithin t.size
  directDerivation : ∃ r, g.directDerivation t.size = .ok r ∧ r.Fits t.size
  reachability : ∃ r, g.reachability t.size = .ok r ∧ r.Fits t.size
  unitDerivation : ∃ r, g.unitDerivation t.size = .ok r ∧ r.Fits t.size
  reachableSymbols : ∃ set, g.reachableSymbols t.size = .ok set
  usefulness : ∃ u, Usefulness.ofGrammar g t.size = .ok u
  analyze : ∃ report, g.analyze t = .ok report
  removeUnproductive : g.removeUnproductive.CoveredBy t
  removeUnreachable : ∃ h, g.removeUnreachable t.size = .ok h ∧ h.CoveredBy t
  removeUseless : ∃ h, g.removeUseless t.size = .ok h ∧ h.CoveredBy t
  eliminateUnits : ∃ h, g.eliminateUnits t.size = .ok h ∧ h.CoveredBy t
  eliminateEpsilon : ∀ naming, t.GrowsTo (g.eliminateEpsilon t naming).2 ∧
    (g.eliminateEpsilon t naming).1.CoveredBy (g.eliminateEpsilon t naming).2
  binarize : ∀ memo : BinaryMemo, memo.CoveredBy t → t.GrowsTo (g.binarize memo t).table ∧
    (g.binarize memo t).grammar.CoveredBy (g.binarize memo t).table ∧
      (g.binarize memo t).memo.CoveredBy (g.binarize memo t).table
  normalize : ∀ naming,
    (∃ e, g.validate t = .error e ∧ (g.normalize t naming).outcome = .error (.invalid e)) ∨
      (g.normalize t naming).outcome = .ok (.emptyLanguage, t) ∨
      ∃ stages t', (g.normalize t naming).outcome = .ok (.cnf stages, t') ∧
        g.StagesInRange t naming stages t'

/-- Every matrix of a covered grammar is accessed within its size. -/
theorem CoveredBy.staysInRange (hg : g.CoveredBy t) : g.StaysInRange t where
  accesses := hg.accessesWithin
  productiveAccesses := hg.removeUnproductive.accessesWithin
  directDerivation := hg.directDerivation_eq_ok
  reachability := hg.reachability_eq_ok
  unitDerivation := hg.unitDerivation_eq_ok
  reachableSymbols := (reachableSymbols_eq_ok hg).imp fun _ hset => hset.1
  usefulness := hg.usefulness_eq_ok.imp fun _ hu => hu.1
  analyze := hg.analyze_eq_ok.imp fun _ hreport => hreport.1
  removeUnproductive := hg.removeUnproductive
  removeUnreachable := hg.removeUnreachable_eq_ok
  removeUseless := hg.removeUseless_eq_ok
  eliminateUnits := hg.eliminateUnits_eq_ok
  eliminateEpsilon naming := ⟨g.growsTo_eliminateEpsilon t naming, hg.eliminateEpsilon naming⟩
  binarize memo hmemo := ⟨g.growsTo_binarize memo t, hg.binarize hmemo⟩
  normalize := hg.normalize_in_range

end Grammar

end Chomsky
