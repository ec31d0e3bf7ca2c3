import Chomsky.Proofs.SortedRules

/-!
# What each stage computes

Rules are a set in the account of stages so far. Here they are lists: a run of
normalization yields each stage by its transformation from the one before, and the
order of its rules is known. Reachability picks rules from a list. Elimination of
unit rules lists nonterminals, and what they derive, in the order of their numbers.
The normal form lists its rules by name.
-/

namespace Chomsky

/-! ### Symbols in ascending order -/

/-- The symbols are listed in ascending order of their numbers. -/
def Ascending (symbols : List Symbol) : Prop := symbols.Pairwise fun a b => a.index < b.index

/-- Ascending symbols are not repeated. -/
theorem Ascending.nodup {symbols : List Symbol} (h : Ascending symbols) : symbols.Nodup :=
  h.imp fun hlt heq => absurd (congrArg Symbol.index heq) (Nat.ne_of_lt hlt)

/-- The members of an ascending list determine the list. -/
theorem Ascending.eq_of_mem_iff {xs ys : List Symbol} (hxs : Ascending xs) (hys : Ascending ys)
    (hmem : ∀ s, s ∈ xs ↔ s ∈ ys) : xs = ys := by
  have hperm : xs.Perm ys := (List.perm_ext_iff_of_nodup hxs.nodup hys.nodup).mpr hmem
  refine hperm.eq_of_pairwise (fun a b _ _ hlt hgt => ?_) hxs hys
  exact absurd hlt (Nat.lt_asymm hgt)

/-- A set is listed in ascending order. -/
theorem SymbolSet.ascending_toList (set : SymbolSet) : Ascending set.toList := by
  refine List.pairwise_map.mpr (Std.TreeSet.ordered_toList.imp_of_mem fun {i j} hi hj hlt => ?_)
  have hbound : ∀ k ∈ set.ones.toList, (Symbol.ofIndex k).index = k := fun k hk =>
    Symbol.index_ofIndex_of_lt (set.ones_index k (Std.TreeSet.mem_toList.mp hk))
  rw [hbound i hi, hbound j hj]
  exact Nat.compare_eq_lt.mp hlt

/-- A row lists its symbols in ascending order if all positions that it relates to are numbers of
symbols. -/
theorem SymbolRelation.ascending_row_of_related {r : SymbolRelation} {s : Symbol}
    {symbols : List Symbol} (hbound : ∀ j < r.size, r.Related s.index j → j < UInt32.size)
    (hrow : r.row s = .ok symbols) : Ascending symbols := by
  unfold row at hrow
  split at hrow
  · cases hrow
    exact List.Pairwise.nil
  · split at hrow
    · cases hrow
      refine List.pairwise_map.mpr ?_
      refine (List.pairwise_lt_range.filter _).imp_of_mem fun {i j} hi hj hlt => ?_
      have hindex : ∀ k ∈ (List.range r.size).filter (r.rows.getD s.index 0).testBit,
          (Symbol.ofIndex k).index = k := by
        intro k hk
        obtain ⟨hsize, hrelated⟩ := List.mem_filter.mp hk
        exact Symbol.index_ofIndex_of_lt (hbound k (List.mem_range.mp hsize) hrelated)
      rwa [hindex i hi, hindex j hj]
    · cases hrow

/-- A row lists its symbols in ascending order, as long as numbers suffice. -/
theorem SymbolRelation.ascending_row {r : SymbolRelation} {s : Symbol} {symbols : List Symbol}
    (hsize : r.size ≤ UInt32.size) (hrow : r.row s = .ok symbols) : Ascending symbols :=
  ascending_row_of_related (fun _ hj _ => Nat.lt_of_lt_of_le hj hsize) hrow

namespace Grammar

variable {g h : Grammar} {t t' : SymbolTable} {naming : Naming} {stages : Stages}

/-! ### Single transformations -/

/-- The reachable part is picked by the set of symbols that the start symbol reaches. -/
theorem restrictTo_of_removeUnreachable (hg : g.CoveredBy t)
    (hresult : g.removeUnreachable t.size = .ok h) :
    ∃ set, (∀ s, s ∈ set ↔ Reaches g.rules g.start s) ∧ h = g.restrictTo set := by
  obtain ⟨set, hok, hmem⟩ := reachableSymbols_eq_ok hg
  refine ⟨set, hmem, ?_⟩
  rw [removeUnreachable, hok] at hresult
  exact (Except.ok.inj hresult).symm

/-- What is left after the removal of unreachable symbols is the reachable part. -/
theorem reachablePart_of_removeUnreachable (hg : g.CoveredBy t)
    (hresult : g.removeUnreachable t.size = .ok h) : g.ReachablePart h := by
  obtain ⟨h', hresult', hpart⟩ := removeUnreachable_eq_ok hg
  rw [hresult] at hresult'
  rwa [Except.ok.inj hresult']

/-- What is left after the elimination of unit rules is the form without unit rules. -/
theorem unitFreeForm_of_eliminateUnits (hg : g.CoveredBy t)
    (hresult : g.eliminateUnits t.size = .ok h) : g.UnitFreeForm h := by
  obtain ⟨h', hresult', hform⟩ := eliminateUnits_eq_ok hg
  rw [hresult] at hresult'
  rwa [Except.ok.inj hresult']

/-- The symbols that each covered symbol derives by unit rules, in ascending order. -/
structure ListsUnits (g : Grammar) (t : SymbolTable) (derived : Symbol → List Symbol) : Prop where
  ascending : ∀ s, t.Covers s → Ascending (derived s)
  mem_iff : ∀ s, t.Covers s → ∀ x, x ∈ derived s ↔ Relation.ReflTransGen g.UnitStep s x

/-- The rows that are read one after the other are put together. -/
theorem unitFreeRules_eq_flatMap {r : SymbolRelation} {lhss : List Symbol} {rules : List Rule}
    {derived : Symbol → List Symbol} (hrows : ∀ lhs ∈ lhss, r.row lhs = .ok (derived lhs))
    (hresult : g.unitFreeRules r lhss = .ok rules) :
    rules = lhss.flatMap fun lhs => g.inheritedRules lhs (derived lhs) := by
  induction lhss generalizing rules with
  | nil => exact (Except.ok.inj hresult).symm
  | cons lhs rest ih =>
    simp only [unitFreeRules, bind_eq_ok_iff] at hresult
    obtain ⟨row, hrow, others, hothers, hrules⟩ := hresult
    rw [hrows lhs List.mem_cons_self] at hrow
    rw [List.flatMap_cons, ← ih (fun x hx => hrows x (List.mem_cons_of_mem lhs hx)) hothers]
    rw [Except.ok.inj hrow]
    exact (Except.ok.inj hrules).symm

/-- Nonterminals inherit in the order of their numbers, and from symbols in that order. -/
theorem rules_of_eliminateUnits (hg : g.CoveredBy t) (hsize : t.size ≤ UInt32.size)
    (hresult : g.eliminateUnits t.size = .ok h) :
    ∃ derived, g.ListsUnits t derived ∧
      h.rules = g.nonterminals.toList.flatMap fun lhs => g.inheritedRules lhs (derived lhs) := by
  obtain ⟨r, hok, hrsize, hrows⟩ := unitDerivation_eq_ok hg
  let derived : Symbol → List Symbol := fun s => (r.row s).toOption.getD []
  have hderived : ∀ s, t.Covers s → r.row s = .ok (derived s) ∧
      ∀ x, x ∈ derived s ↔ Relation.ReflTransGen g.UnitStep s x := by
    intro s hs
    obtain ⟨symbols, hrow, hmem⟩ := hrows s hs
    have hsame : derived s = symbols := by simp only [derived, hrow]; rfl
    rw [hsame]
    exact ⟨hrow, hmem⟩
  simp only [eliminateUnits, bind_eq_ok_iff] at hresult
  obtain ⟨r', hr', rules, hrules, hh⟩ := hresult
  obtain rfl : r = r' := Except.ok.inj (hok.symm.trans hr')
  refine ⟨derived, ⟨fun s hs => ?_, fun s hs => (hderived s hs).2⟩, ?_⟩
  · exact SymbolRelation.ascending_row (by rwa [hrsize]) (hderived s hs).1
  · rw [← Except.ok.inj hh]
    refine unitFreeRules_eq_flatMap (fun lhs hlhs => (hderived lhs ?_).1) hrules
    exact hg.nonterminals lhs (SymbolSet.mem_toList.mp hlhs)

/-! ### The whole run -/

/-- Each stage is what its transformation yields for the one before. -/
structure Computed (g : Grammar) (t : SymbolTable) (naming : Naming) (stages : Stages)
    (t' : SymbolTable) : Prop where
  productive : stages.productive = g.removeUnproductive
  reachable : stages.productive.removeUnreachable t.size = .ok stages.reachable
  epsilonFree : stages.epsilonFree = (stages.reachable.eliminateEpsilon t naming).1
  unitFree : stages.epsilonFree.eliminateUnits (stages.epsilonTable t naming).size =
    .ok stages.unitFree
  table : t' = (stages.split t naming).table
  cnf : ∃ useful, (stages.split t naming).grammar.removeUseless t'.size = .ok useful ∧
    stages.cnf = (useful.sort t').dedup

private theorem computed_of_journalStages
    (hresult : (g.journalStages t naming).outcome = .ok (stages, t')) :
    g.Computed t naming stages t' := by
  simp only [journalStages, Journaled.outcome_bind, outcome_journalUnproductive,
    outcome_journalUnreachable, outcome_journalEpsilon, outcome_journalUnits,
    outcome_journalBinary, outcome_journalUseless, Journaled.outcome_record,
    Journaled.outcome_pure, bind_eq_ok_iff] at hresult
  obtain ⟨_, ⟨⟩, reachable, hreachable, _, ⟨⟩, unitFree, hunitFree, _, ⟨⟩, useful, huseful, _, -,
    ⟨⟩⟩ := hresult
  exact ⟨rfl, hreachable, rfl, hunitFree, rfl, useful, huseful, rfl⟩

/-- Each stage of normalization is computed from the one before it. -/
theorem computed_of_normalize
    (hresult : (g.normalize t naming).outcome = .ok (.cnf stages, t')) :
    g.Computed t naming stages t' := by
  have hvalid := validate_of_normalize hresult
  unfold normalize at hresult
  by_cases hempty : g.isLanguageEmpty = true
  · simp only [Journaled.outcome_bind, Journaled.outcome_mapError, Journaled.outcome_ofExcept,
      hvalid, hempty, if_true] at hresult
    cases hresult
  · rw [if_neg hempty] at hresult
    simp only [Journaled.outcome_bind, Journaled.outcome_mapError, Journaled.outcome_ofExcept,
      hvalid, Except.mapError, bind_eq_ok_iff] at hresult
    obtain ⟨_, _, result, hstages, hpure⟩ := hresult
    cases hstages' : (g.journalStages t naming).outcome with
    | error e =>
      rw [hstages'] at hstages
      cases hstages
    | ok result' =>
      rw [hstages'] at hstages
      cases hstages
      cases hpure
      exact computed_of_journalStages hstages'

/-- A covered normal form lists its rules by name. -/
theorem Computed.listedByName_cnf (hcomputed : g.Computed t naming stages t')
    (hcovered : stages.cnf.CoveredBy t') : ListedByName t' stages.cnf.rules := by
  obtain ⟨useful, _, hcnf⟩ := hcomputed.cnf
  have hmem : ∀ rule, rule ∈ stages.cnf.rules ↔ rule ∈ useful.rules := by
    intro rule
    rw [hcnf]
    exact mem_dropRepeats.trans List.mem_mergeSort
  have hrules : ∀ rule ∈ useful.rules, rule.CoveredBy t' := fun rule hrule =>
    hcovered.rules rule ((hmem rule).mpr hrule)
  rw [hcnf]
  exact listedByName_dropRepeats_mergeSort hrules

/-- The normal form lists its rules by name. -/
theorem listedByName_cnf (hcovered : g.CoveredBy t)
    (hresult : (g.normalize t naming).outcome = .ok (.cnf stages, t'))
    (hsize : t'.size ≤ UInt32.size) : ListedByName t' stages.cnf.rules := by
  obtain ⟨hwell, _, hstaged⟩ := staged_of_normalize hcovered hresult
  have hcovered' := (hstaged.sound_cnf hwell hcovered hsize).covered
  exact (computed_of_normalize hresult).listedByName_cnf hcovered'

end Grammar

end Chomsky
