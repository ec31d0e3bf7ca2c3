import Chomsky.Analysis.Reachable
import Chomsky.Derivation
import Chomsky.Grammar.Covered
import Chomsky.Proofs.TransitiveClosure

/-!
# Reachable symbols

A symbol reaches another when a chain of rules leads from left sides to symbols of
right sides. If a table covers a grammar, its derivation relations are in range,
the reachable symbols are those that the start symbol reaches, and these are the
symbols of its sentential forms. Unit derivation follows chains of unit rules in
the same way.
-/

namespace Chomsky

/-- A rule for the first symbol has the second on its right side. -/
def Mentions (rules : List Rule) (a b : Symbol) : Prop :=
  ∃ rule ∈ rules, rule.lhs = a ∧ b ∈ rule.rhs

/-- A chain of rules leads from the first symbol to the second. -/
def Reaches (rules : List Rule) : Symbol → Symbol → Prop := Relation.ReflTransGen (Mentions rules)

private theorem mem_derivationPairs_iff {rules : List Rule} {a b : Symbol} :
    (a, b) ∈ derivationPairs rules ↔ Mentions rules a b := by
  simp only [derivationPairs, List.mem_flatMap, List.mem_map, Mentions]
  constructor
  · rintro ⟨rule, hrule, s, hs, heq⟩
    cases heq
    exact ⟨rule, hrule, rfl, hs⟩
  · rintro ⟨rule, hrule, rfl, hb⟩
    exact ⟨rule, hrule, b, hb, rfl⟩

variable {t : SymbolTable} {rules : List Rule}

/-- Rules that a table covers relate symbols within its range. -/
theorem lt_size_of_mem_derivationPairs (hrules : ∀ rule ∈ rules, rule.CoveredBy t)
    {p : Symbol × Symbol} (hp : p ∈ derivationPairs rules) :
    p.1.index < t.size ∧ p.2.index < t.size := by
  obtain ⟨rule, hrule, hlhs, hb⟩ := mem_derivationPairs_iff.mp hp
  exact ⟨hlhs ▸ (hrules rule hrule).1, (hrules rule hrule).2 p.2 hb⟩

/-- Within a table that covers the rules, reachability holds the chains of one or more rules. -/
theorem reachabilityOf_eq_ok (hrules : ∀ rule ∈ rules, rule.CoveredBy t) :
    ∃ r, reachabilityOf t.size rules = .ok r ∧ r.size = t.size ∧
      ∀ (s : Symbol) (j : Nat),
        r.Related s.index j ↔ ∃ x, x.index = j ∧ Relation.TransGen (Mentions rules) s x := by
  obtain ⟨r, hok, hsize, hrelated⟩ :=
    SymbolRelation.ofPairs_eq_ok fun p hp => lt_size_of_mem_derivationPairs hrules hp
  refine ⟨r.transitiveClosure, ?_, ?_, fun s j => ?_⟩
  · rw [reachabilityOf, directDerivationOf, hok]
    rfl
  · rw [SymbolRelation.size_transitiveClosure, hsize]
  · simp only [mem_derivationPairs_iff] at hrelated
    rw [SymbolRelation.related_transitiveClosure]
    exact SymbolRelation.transGen_related_iff hrelated s

/-- A chain of rules stays within a table that covers them. -/
theorem Reaches.covers (hrules : ∀ rule ∈ rules, rule.CoveredBy t) {a b : Symbol}
    (h : Reaches rules a b) (ha : t.Covers a) : t.Covers b := by
  induction h with
  | refl => exact ha
  | tail _ hstep _ =>
    obtain ⟨rule, hrule, _, hb⟩ := hstep
    exact (hrules rule hrule).2 _ hb

/-- The row of a covered symbol holds what it reaches by one or more rules. -/
theorem row_reachabilityOf_eq_ok (hrules : ∀ rule ∈ rules, rule.CoveredBy t) {s : Symbol}
    (hs : t.Covers s) :
    ∃ r symbols, reachabilityOf t.size rules = .ok r ∧ r.size = t.size ∧ r.row s = .ok symbols ∧
      ∀ x, x ∈ symbols ↔ Relation.TransGen (Mentions rules) s x := by
  obtain ⟨r, hok, hsize, hrelated⟩ := reachabilityOf_eq_ok hrules
  obtain ⟨symbols, hrow, hmem⟩ := SymbolRelation.row_eq_ok (r := r) (s := s) (by rwa [hsize])
  refine ⟨r, symbols, hok, hsize, hrow, fun x => ?_⟩
  rw [hmem]
  constructor
  · rintro ⟨j, _, hj, rfl⟩
    obtain ⟨x, rfl, hx⟩ := (hrelated s j).mp hj
    rwa [Symbol.ofIndex_index]
  · intro hx
    have hcovers : t.Covers x := Reaches.covers hrules hx.to_reflTransGen hs
    exact ⟨x.index, by rwa [hsize], (hrelated s _).mpr ⟨x, rfl, hx⟩, Symbol.ofIndex_index x⟩

/-- The reachable symbols are a row of the reachability relation, and the symbol itself. -/
theorem reachableFrom_of_row {size : Nat} {r : SymbolRelation} {s : Symbol} {symbols : List Symbol}
    (hok : reachabilityOf size rules = .ok r) (hrow : r.row s = .ok symbols) :
    reachableFrom size rules s = .ok ((SymbolSet.ofList symbols).insert s) := by
  rw [reachableFrom, hok]
  show (r.rowSet s >>= fun row => pure (row.insert s)) = _
  rw [SymbolRelation.rowSet, hrow]
  rfl

/-- Within a table that covers the rules and a symbol, exactly the symbols that it reaches are
found. -/
theorem reachableFrom_eq_ok (hrules : ∀ rule ∈ rules, rule.CoveredBy t) {s : Symbol}
    (hs : t.Covers s) :
    ∃ set, reachableFrom t.size rules s = .ok set ∧ ∀ x, x ∈ set ↔ Reaches rules s x := by
  obtain ⟨r, symbols, hok, _, hrow, hmem⟩ := row_reachabilityOf_eq_ok hrules hs
  refine ⟨_, reachableFrom_of_row hok hrow, fun x => ?_⟩
  have hinsert : x ∈ (SymbolSet.ofList symbols).insert s ↔ x = s ∨ x ∈ symbols := by
    simp [SymbolSet.mem_iff]
  rw [hinsert, hmem, Reaches, Relation.reflTransGen_iff_eq_or_transGen]

namespace Grammar

variable {g : Grammar}

/-- The reachable symbols of a covered grammar are those that its start symbol reaches. -/
theorem reachableSymbols_eq_ok (h : g.CoveredBy t) :
    ∃ set, g.reachableSymbols t.size = .ok set ∧ ∀ x, x ∈ set ↔ Reaches g.rules g.start x :=
  reachableFrom_eq_ok h.rules h.start

/-- The symbols of sentential forms are those that the start symbol reaches. -/
theorem mem_sententialSymbols_iff {s : Symbol} :
    s ∈ g.sententialSymbols ↔ Reaches g.rules g.start s := by
  constructor
  · rintro ⟨form, hderives, hs⟩
    induction hderives generalizing s with
    | refl =>
      obtain rfl := List.mem_singleton.mp hs
      exact Relation.ReflTransGen.refl
    | tail _ hstep ih =>
      obtain ⟨hrule, before, after⟩ := hstep
      rw [List.mem_append, List.mem_append] at hs
      rcases hs with (hs | hs) | hs
      · exact ih (List.mem_append_left _ hs)
      · have hlhs := ih (List.mem_append_right _ List.mem_cons_self)
        exact hlhs.tail ⟨_, hrule, rfl, hs⟩
      · exact ih (List.mem_append_right _ (List.mem_cons_of_mem _ hs))
  · intro hreaches
    induction hreaches with
    | refl => exact ⟨[g.start], Derives.refl _, List.mem_singleton_self _⟩
    | tail _ hstep ih =>
      obtain ⟨form, hderives, hform⟩ := ih
      obtain ⟨rule, hrule, rfl, hs⟩ := hstep
      obtain ⟨before, after, rfl⟩ := List.append_of_mem hform
      refine ⟨before ++ rule.rhs ++ after, hderives.trans ?_, ?_⟩
      · exact Relation.ReflTransGen.single (Step.apply hrule before after)
      · exact List.mem_append_left _ (List.mem_append_right _ hs)

/-! ### Unit derivation -/

/-- A unit rule leads from the first symbol to the second. -/
def UnitStep (g : Grammar) (a b : Symbol) : Prop := ⟨a, [b]⟩ ∈ g.rules ∧ b ∈ g.nonterminals

private theorem unitTarget?_eq_some_iff {rule : Rule} {b : Symbol} :
    g.unitTarget? rule = some b ↔ rule.rhs = [b] ∧ b ∈ g.nonterminals := by
  unfold unitTarget?
  split
  · rename_i s hrhs
    rw [hrhs]
    by_cases hs : g.isNonterminal s = true
    · rw [if_pos hs]
      constructor
      · rintro ⟨rfl⟩
        exact ⟨rfl, hs⟩
      · rintro ⟨⟨rfl⟩, _⟩
        rfl
    · rw [if_neg hs]
      constructor
      · rintro ⟨⟩
      · rintro ⟨⟨rfl⟩, hb⟩
        exact absurd hb hs
  · rename_i hne
    constructor
    · rintro ⟨⟩
    · rintro ⟨hrhs, _⟩
      exact absurd hrhs (hne b)

/-- A unit rule has a single nonterminal on the right. -/
theorem isUnitRule_iff {rule : Rule} :
    g.isUnitRule rule = true ↔ ∃ b ∈ g.nonterminals, rule.rhs = [b] := by
  simp only [isUnitRule, Option.isSome_iff_exists, unitTarget?_eq_some_iff, and_comm]

/-- The unit pairs are the steps by unit rules. -/
theorem mem_unitPairs_iff {a b : Symbol} : (a, b) ∈ g.unitPairs ↔ g.UnitStep a b := by
  simp only [unitPairs, List.mem_filterMap, Option.map_eq_some_iff]
  constructor
  · rintro ⟨⟨lhs, rhs⟩, hrule, s, htarget, heq⟩
    cases heq
    obtain ⟨rfl, hb⟩ := unitTarget?_eq_some_iff.mp htarget
    exact ⟨hrule, hb⟩
  · rintro ⟨hrule, hb⟩
    exact ⟨_, hrule, b, unitTarget?_eq_some_iff.mpr ⟨rfl, hb⟩, rfl⟩

/-- Unit rules that a table covers relate symbols within its range. -/
theorem CoveredBy.lt_size_of_mem_unitPairs (h : g.CoveredBy t) {p : Symbol × Symbol}
    (hp : p ∈ g.unitPairs) : p.1.index < t.size ∧ p.2.index < t.size := by
  obtain ⟨hrule, _⟩ := mem_unitPairs_iff.mp hp
  exact ⟨(h.rules _ hrule).1, (h.rules _ hrule).2 p.2 (List.mem_singleton_self p.2)⟩

/-- Within a table that covers the grammar, the row of a symbol holds what it derives by unit
rules. -/
theorem unitDerivation_eq_ok (h : g.CoveredBy t) :
    ∃ r, g.unitDerivation t.size = .ok r ∧ r.size = t.size ∧ ∀ s, t.Covers s →
      ∃ symbols, r.row s = .ok symbols ∧
        ∀ x, x ∈ symbols ↔ Relation.ReflTransGen g.UnitStep s x := by
  obtain ⟨r, hok, hsize, hrelated⟩ :=
    SymbolRelation.ofPairs_eq_ok fun p hp => h.lt_size_of_mem_unitPairs hp
  simp only [mem_unitPairs_iff] at hrelated
  have hclosed : r.transitiveClosure.reflexiveClosure.size = t.size := by simp [hsize]
  refine ⟨r.transitiveClosure.reflexiveClosure, by rw [unitDerivation, hok]; rfl, hclosed,
    fun s hs => ?_⟩
  obtain ⟨symbols, hrow, hmem⟩ := SymbolRelation.row_eq_ok
    (r := r.transitiveClosure.reflexiveClosure) (s := s) (by rwa [hclosed])
  refine ⟨symbols, hrow, fun x => ?_⟩
  rw [hmem, Relation.reflTransGen_iff_eq_or_transGen]
  simp only [SymbolRelation.related_reflexiveClosure, SymbolRelation.related_transitiveClosure,
    SymbolRelation.transGen_related_iff hrelated]
  constructor
  · rintro ⟨j, _, ⟨x, rfl, hx⟩ | ⟨_, rfl⟩, rfl⟩
    · exact Or.inr (by rwa [Symbol.ofIndex_index])
    · exact Or.inl (Symbol.ofIndex_index s)
  · rintro (rfl | hx)
    · have hlt : x.index < t.size := hs
      exact ⟨x.index, by omega, Or.inr ⟨by simp [hsize, hlt], rfl⟩, Symbol.ofIndex_index x⟩
    · obtain ⟨_, _, hrule, _⟩ := Relation.TransGen.tail'_iff.mp hx
      have hlt : x.index < t.size := (h.rules _ hrule).2 x (List.mem_singleton_self x)
      exact ⟨x.index, by omega, Or.inl ⟨x, rfl, hx⟩, Symbol.ofIndex_index x⟩

end Grammar

end Chomsky
