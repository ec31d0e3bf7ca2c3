import Chomsky.Proofs.ComputedStages

/-!
# Derivation relations hold exactly the chains of rules

Reachability and unit derivation are computed as closures of relations stored as rows of
bits. Over a table that covers a grammar both computations succeed, and what can be read
from the results is exact: reachability has the pairs that a chain of one or more rules
joins, and unit derivation those that a chain of unit rules joins, together with each
symbol and itself. A test of a pair, a row and the set of a row all agree on this.
-/

namespace Chomsky

/-- The set of an ascending list lists the same symbols again. -/
theorem SymbolSet.toList_ofList_of_ascending {symbols : List Symbol} (h : Ascending symbols) :
    (ofList symbols).toList = symbols := by
  refine (ascending_toList _).eq_of_mem_iff h fun s => ?_
  rw [mem_toList, contains_ofList, List.contains_iff_mem]

namespace SymbolRelation

variable {r : SymbolRelation} {size : Nat} {link : Symbol → Symbol → Prop}

/-- The relation is on the symbols below `size` and holds exactly the pairs that are linked: a test
of a pair tells whether it is linked, and a row lists the linked symbols in ascending order, as a
list and as a set. -/
structure HoldsExactly (r : SymbolRelation) (size : Nat) (link : Symbol → Symbol → Prop) :
    Prop where
  size_eq : r.size = size
  get : ∀ a b, a.index < size → b.index < size →
    ∃ included, r.get a b = .ok included ∧ (included = true ↔ link a b)
  row : ∀ a, a.index < size →
    ∃ symbols, r.row a = .ok symbols ∧ Ascending symbols ∧ ∀ b, b ∈ symbols ↔ link a b
  rowSet : ∀ a, a.index < size →
    ∃ set, r.rowSet a = .ok set ∧ r.row a = .ok set.toList ∧ ∀ b, b ∈ set ↔ link a b

section Related

variable {a b : Symbol} (hrelated : ∀ j, r.Related a.index j ↔ ∃ b, b.index = j ∧ link a b)

include hrelated

private theorem related_index_iff : r.Related a.index b.index ↔ link a b := by
  rw [hrelated]
  constructor
  · rintro ⟨x, hindex, hx⟩
    exact Symbol.index_injective hindex ▸ hx
  · exact fun hab => ⟨b, rfl, hab⟩

/-- A row is ascending because only numbers of symbols can be linked. -/
theorem row_of_related (ha : a.index < r.size) (hlink : ∀ b, link a b → b.index < r.size) :
    ∃ symbols, r.row a = .ok symbols ∧ Ascending symbols ∧ ∀ b, b ∈ symbols ↔ link a b := by
  obtain ⟨symbols, hok, hmem⟩ := row_eq_ok ha
  refine ⟨symbols, hok, ascending_row_of_related (fun j _ hj => ?_) hok, fun b => ?_⟩
  · obtain ⟨b, rfl, _⟩ := (hrelated j).mp hj
    exact b.index_lt
  · rw [hmem]
    constructor
    · rintro ⟨j, _, hj, rfl⟩
      obtain ⟨b, rfl, hb⟩ := (hrelated j).mp hj
      rwa [Symbol.ofIndex_index]
    · intro hab
      exact ⟨b.index, hlink b hab, (related_index_iff hrelated).mpr hab, Symbol.ofIndex_index b⟩

end Related

/-- It suffices that the bits of each row stand for linked symbols, which are below `size`. -/
theorem holdsExactly_of_related (hsize : r.size = size)
    (hrelated : ∀ a : Symbol, a.index < size →
      ∀ j, r.Related a.index j ↔ ∃ b, b.index = j ∧ link a b)
    (hlink : ∀ a b : Symbol, a.index < size → link a b → b.index < size) :
    r.HoldsExactly size link := by
  subst hsize
  have hrow := fun a ha => row_of_related (hrelated a ha) ha (hlink a · ha)
  refine ⟨rfl, fun a b ha hb => ?_, hrow, fun a ha => ?_⟩
  · obtain ⟨included, hok, hincluded⟩ := get_eq_ok ha hb
    exact ⟨included, hok, hincluded.trans (related_index_iff (hrelated a ha))⟩
  · obtain ⟨symbols, hok, hascending, hmem⟩ := hrow a ha
    have hlist := SymbolSet.toList_ofList_of_ascending hascending
    refine ⟨SymbolSet.ofList symbols, by rw [rowSet, hok]; rfl, by rw [hlist, hok], fun b => ?_⟩
    rw [SymbolSet.mem_iff, ← SymbolSet.mem_toList, hlist, hmem]

end SymbolRelation

namespace Grammar

variable {g : Grammar} {t : SymbolTable}

private theorem CoveredBy.reachability_holdsExactly (hg : g.CoveredBy t) :
    ∃ r, g.reachability t.size = .ok r ∧
      r.HoldsExactly t.size (Relation.TransGen (Mentions g.rules)) := by
  obtain ⟨r, hok, hsize, hrelated⟩ := reachabilityOf_eq_ok hg.rules
  refine ⟨r, hok, SymbolRelation.holdsExactly_of_related hsize (fun a _ => hrelated a) ?_⟩
  intro a b ha hab
  exact Reaches.covers hg.rules hab.to_reflTransGen ha

/-- The bits of unit derivation stand for the symbol itself and what unit rules lead to. -/
theorem CoveredBy.related_unitDerivation (hg : g.CoveredBy t) :
    ∃ r, g.unitDerivation t.size = .ok r ∧ r.size = t.size ∧ ∀ s, t.Covers s → ∀ j,
      (r.Related s.index j ↔ ∃ x, x.index = j ∧ (s = x ∨ Relation.TransGen g.UnitStep s x)) := by
  obtain ⟨r, hok, hsize, hrelated⟩ :=
    SymbolRelation.ofPairs_eq_ok fun p hp => hg.lt_size_of_mem_unitPairs hp
  simp only [mem_unitPairs_iff] at hrelated
  refine ⟨r.transitiveClosure.reflexiveClosure, by rw [unitDerivation, hok]; rfl, by simp [hsize],
    fun s hs j => ?_⟩
  rw [SymbolRelation.related_reflexiveClosure, SymbolRelation.related_transitiveClosure,
    SymbolRelation.transGen_related_iff hrelated, SymbolRelation.size_transitiveClosure, hsize]
  constructor
  · rintro (⟨x, hx, hchain⟩ | ⟨_, hj⟩)
    · exact ⟨x, hx, Or.inr hchain⟩
    · exact ⟨s, hj, Or.inl rfl⟩
  · rintro ⟨x, hx, rfl | hchain⟩
    · exact Or.inr ⟨hs, hx⟩
    · exact Or.inl ⟨x, hx, hchain⟩

private theorem CoveredBy.unitDerivation_holdsExactly (hg : g.CoveredBy t) :
    ∃ r, g.unitDerivation t.size = .ok r ∧
      r.HoldsExactly t.size fun a b => a = b ∨ Relation.TransGen g.UnitStep a b := by
  obtain ⟨r, hok, hsize, hrelated⟩ := hg.related_unitDerivation
  refine ⟨r, hok, SymbolRelation.holdsExactly_of_related hsize hrelated ?_⟩
  rintro a b ha (rfl | hchain)
  · exact ha
  · obtain ⟨_, _, hrule, _⟩ := Relation.TransGen.tail'_iff.mp hchain
    exact (hg.rules _ hrule).2 b (List.mem_singleton_self b)

/-- Over a table that covers a grammar, reachability holds exactly the chains of one or more rules,
and unit derivation exactly the chains of unit rules, of any number of them. -/
theorem derivation_relations_exact (hg : g.CoveredBy t) :
    (∃ r, g.reachability t.size = .ok r ∧
      r.HoldsExactly t.size (Relation.TransGen (Mentions g.rules))) ∧
    ∃ r, g.unitDerivation t.size = .ok r ∧
      r.HoldsExactly t.size fun a b => a = b ∨ Relation.TransGen g.UnitStep a b :=
  ⟨hg.reachability_holdsExactly, hg.unitDerivation_holdsExactly⟩

/-- The unit rules lead through the numbers 2, 4, 0, 3 and 1 and around a circle of 0 and 3. The
last rule leads back to the start of the chain, and is no unit rule. -/
def winding : Grammar where
  start := ⟨2⟩
  nonterminals := .ofList [⟨0⟩, ⟨1⟩, ⟨2⟩, ⟨3⟩, ⟨4⟩]
  terminals := .ofList [⟨5⟩]
  rules := [⟨⟨3⟩, [⟨1⟩]⟩, ⟨⟨3⟩, [⟨0⟩]⟩, ⟨⟨0⟩, [⟨3⟩]⟩, ⟨⟨2⟩, [⟨4⟩]⟩, ⟨⟨4⟩, [⟨0⟩]⟩,
    ⟨⟨1⟩, [⟨5⟩, ⟨2⟩]⟩]

def windingTable : SymbolTable :=
  (SymbolTable.empty.internAll ["A", "B", "C", "D", "E", "a"]).2

/-- The whole chain of unit rules is found and nothing leads back along it, while all rules together
lead from each nonterminal to itself. -/
theorem derivation_relations_winding :
    winding.CoveredBy windingTable ∧
    Relation.TransGen (Mentions winding.rules) ⟨2⟩ ⟨2⟩ ∧
    Relation.TransGen winding.UnitStep ⟨2⟩ ⟨1⟩ ∧ ¬Relation.TransGen winding.UnitStep ⟨1⟩ ⟨2⟩ := by
  have hcovered : winding.CoveredBy windingTable := by decide +kernel
  obtain ⟨⟨r, hr, hreach⟩, u, hu, hunit⟩ := derivation_relations_exact hcovered
  have hfound : (winding.reachability windingTable.size).toOption.map
      (fun r => (r.get ⟨2⟩ ⟨2⟩).toOption) = some (some true) := by decide +kernel
  have hunits : (winding.unitDerivation windingTable.size).toOption.map
      (fun u => ((u.get ⟨2⟩ ⟨1⟩).toOption, (u.get ⟨1⟩ ⟨2⟩).toOption)) =
        some (some true, some false) := by decide +kernel
  obtain ⟨circle, hcircle, hcircleiff⟩ := hreach.get ⟨2⟩ ⟨2⟩ (by decide +kernel) (by decide +kernel)
  obtain ⟨down, hdown, hdowniff⟩ := hunit.get ⟨2⟩ ⟨1⟩ (by decide +kernel) (by decide +kernel)
  obtain ⟨back, hback, hbackiff⟩ := hunit.get ⟨1⟩ ⟨2⟩ (by decide +kernel) (by decide +kernel)
  simp only [hr, Except.toOption, Option.map_some, hcircle, Option.some.injEq] at hfound
  simp only [hu, Except.toOption, Option.map_some, hdown, hback, Option.some.injEq,
    Prod.mk.injEq] at hunits
  refine ⟨hcovered, hcircleiff.mp hfound, ?_, fun hchain => ?_⟩
  · exact (hdowniff.mp hunits.1).resolve_left (by decide)
  · rw [hbackiff.mpr (Or.inr hchain)] at hunits
    exact Bool.false_ne_true hunits.2.symm

end Grammar

end Chomsky
