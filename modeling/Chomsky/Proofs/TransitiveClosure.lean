import Chomsky.Symbol.Relation
import Mathlib.Logic.Relation

/-!
# Transitive closure in one pass

A relation on symbols is stored as rows of bits. One pass over all pivots joins
the row of each pivot to the rows that contain it, and the outcome is the
transitive closure. The pass keeps two facts: only pairs of the closure are
related, and relations compose through every pivot that is done.
-/

namespace Chomsky.SymbolRelation

/-- The bit of a pair of positions is set. -/
def Related (r : SymbolRelation) (i j : Nat) : Prop := (r.rows.getD i 0).testBit j = true

variable {r : SymbolRelation} {i j : Nat}

/-- Related numbers are below the size. -/
theorem Related.lt_size (h : r.Related i j) : i < r.size := by
  refine Nat.lt_of_not_le fun hle => ?_
  have hnone : r.rows[i]? = none := List.getElem?_eq_none hle
  simp [Related, List.getD_eq_getElem?_getD, hnone] at h

/-- The empty relation has the size it is made for. -/
@[simp]
theorem size_empty (size : Nat) :
    (empty size).size = size := by simp [SymbolRelation.size, empty]

private theorem not_related_empty (size i j : Nat) : ¬(empty size).Related i j := by
  intro h
  have hlt := h.lt_size
  rw [size_empty] at hlt
  simp [Related, empty, List.getD_eq_getElem?_getD, hlt] at h

/-! ### Listing pairs -/

private theorem size_le_stride (r : SymbolRelation) : r.size ≤ r.stride := by
  unfold stride
  omega

section Positions

variable {row column : Symbol}

private theorem position_div_stride (hcolumn : column.index < r.size) :
    r.position row column / r.stride = row.index := by
  have hstride : column.index < r.stride := Nat.lt_of_lt_of_le hcolumn r.size_le_stride
  have hpos : 0 < r.stride := Nat.zero_lt_of_lt hstride
  rw [position, Nat.mul_comm, Nat.mul_add_div hpos, Nat.div_eq_of_lt hstride, Nat.add_zero]

private theorem position_mod_stride (hcolumn : column.index < r.size) :
    r.position row column % r.stride = column.index := by
  have hstride : column.index < r.stride := Nat.lt_of_lt_of_le hcolumn r.size_le_stride
  rw [position, Nat.mul_comm, Nat.mul_add_mod, Nat.mod_eq_of_lt hstride]

/-- The position of a pair within the size exists. -/
theorem position_lt (hrow : row.index < r.size) (hcolumn : column.index < r.size) :
    r.position row column < r.size * r.stride := by
  have hpos : 0 < r.stride := Nat.zero_lt_of_lt (Nat.lt_of_lt_of_le hcolumn r.size_le_stride)
  apply (Nat.div_lt_iff_lt_mul hpos).mp
  rwa [position_div_stride hcolumn]

end Positions

/-- A pair within the size is in range, and exactly its bit is set. -/
theorem set_true_eq_ok {row column : Symbol} (hrow : row.index < r.size)
    (hcolumn : column.index < r.size) :
    ∃ r', r.set row column true = .ok r' ∧ r'.size = r.size ∧
      ∀ i j, r'.Related i j ↔ r.Related i j ∨ (i = row.index ∧ j = column.index) := by
  refine ⟨⟨r.rows.modify row.index fun bits => bits ||| 1 <<< column.index⟩, ?_, ?_, fun i j => ?_⟩
  · simp [set, position_lt hrow hcolumn, position_div_stride hcolumn, position_mod_stride hcolumn]
  · simp [SymbolRelation.size]
  · by_cases hi : i = row.index
    · subst hi
      have hget : r.rows[row.index]? = some r.rows[row.index] := List.getElem?_eq_getElem hrow
      simp [Related, List.getD_eq_getElem?_getD, hget, Nat.one_shiftLeft, Nat.testBit_two_pow,
        @eq_comm _ j]
    · have hne : row.index ≠ i := fun h => hi h.symm
      simp [Related, List.getD_eq_getElem?_getD, hi, hne]

/-- The test of a pair within the size succeeds and finds its bit. -/
theorem get_eq_ok {row column : Symbol} (hrow : row.index < r.size)
    (hcolumn : column.index < r.size) :
    ∃ included, r.get row column = .ok included ∧
      (included = true ↔ r.Related row.index column.index) := by
  refine ⟨(r.rows.getD row.index 0).testBit column.index, ?_, Iff.rfl⟩
  simp only [get, position_lt hrow hcolumn, position_div_stride hcolumn,
    position_mod_stride hcolumn, if_true]

/-- Pairs within the size are listed without failure, and exactly their bits are set. -/
theorem insertMany_eq_ok {pairs : List (Symbol × Symbol)}
    (hpairs : ∀ p ∈ pairs, p.1.index < r.size ∧ p.2.index < r.size) :
    ∃ r', r.insertMany pairs = .ok r' ∧ r'.size = r.size ∧
      ∀ i j, r'.Related i j ↔ r.Related i j ∨ ∃ p ∈ pairs, i = p.1.index ∧ j = p.2.index := by
  induction pairs generalizing r with
  | nil => exact ⟨r, rfl, rfl, by simp⟩
  | cons p rest ih =>
    obtain ⟨hrow, hcolumn⟩ := hpairs p List.mem_cons_self
    obtain ⟨r₁, hset, hsize₁, hrelated₁⟩ := set_true_eq_ok hrow hcolumn
    have hrest : ∀ q ∈ rest, q.1.index < r₁.size ∧ q.2.index < r₁.size := by
      intro q hq
      rw [hsize₁]
      exact hpairs q (List.mem_cons_of_mem _ hq)
    obtain ⟨r₂, hinsert, hsize₂, hrelated₂⟩ := ih hrest
    refine ⟨r₂, ?_, hsize₂.trans hsize₁, fun i j => ?_⟩
    · rw [insertMany, hset]
      exact hinsert
    · simp only [hrelated₂, hrelated₁, List.mem_cons, exists_eq_or_imp, or_assoc]

/-- Pairs below the size are put into a relation that holds exactly between them. -/
theorem ofPairs_eq_ok {size : Nat} {pairs : List (Symbol × Symbol)}
    (hpairs : ∀ p ∈ pairs, p.1.index < size ∧ p.2.index < size) :
    ∃ r, ofPairs size pairs = .ok r ∧ r.size = size ∧
      ∀ i j, r.Related i j ↔ ∃ a b, (a, b) ∈ pairs ∧ i = a.index ∧ j = b.index := by
  obtain ⟨r, hok, hsize, hrelated⟩ := insertMany_eq_ok (r := empty size) (by simpa using hpairs)
  refine ⟨r, hok, by simpa using hsize, fun i j => ?_⟩
  rw [hrelated, or_iff_right (not_related_empty size i j), Prod.exists]

/-! ### One pass over the pivots -/

/-- Joining through a pivot does not change the size. -/
@[simp]
theorem size_joinThrough (r : SymbolRelation) (pivot : Nat) :
    (r.joinThrough pivot).size = r.size := by
  simp [joinThrough, SymbolRelation.size]

/-- Joining through a pivot adds the pairs that compose through it. -/
theorem related_joinThrough (r : SymbolRelation) (pivot i j : Nat) :
    (r.joinThrough pivot).Related i j ↔
      r.Related i j ∨ (r.Related i pivot ∧ r.Related pivot j) := by
  by_cases hi : i < r.rows.length
  · have hget : r.rows[i]? = some r.rows[i] := List.getElem?_eq_getElem hi
    simp only [Related, joinThrough, List.getD_eq_getElem?_getD, List.getElem?_map, hget,
      Option.map_some, Option.getD_some]
    by_cases hpivot : r.rows[i].testBit pivot
    · simp [hpivot]
    · simp [hpivot]
  · have hnone : r.rows[i]? = none := List.getElem?_eq_none (Nat.le_of_not_lt hi)
    simp [Related, joinThrough, List.getD_eq_getElem?_getD, hnone]

/-- The relation lies between a given one and its transitive closure, and composes through the
pivots below a bound. -/
structure ClosedBelow (given r : SymbolRelation) (bound : Nat) : Prop where
  size : r.size = given.size
  contains : ∀ i j, given.Related i j → r.Related i j
  sound : ∀ i j, r.Related i j → Relation.TransGen given.Related i j
  compose : ∀ pivot < bound, ∀ i j, r.Related i pivot → r.Related pivot j → r.Related i j

private theorem closedBelow_zero (r : SymbolRelation) : ClosedBelow r r 0 where
  size := rfl
  contains _ _ h := h
  sound _ _ h := Relation.TransGen.single h
  compose _ h := absurd h (Nat.not_lt_zero _)

/-- One more pivot is done. A pair that composes through an earlier pivot composes there, or
through the new pivot, whatever way its two halves came about. -/
theorem ClosedBelow.joinThrough {given r : SymbolRelation} {bound : Nat}
    (h : ClosedBelow given r bound) : ClosedBelow given (r.joinThrough bound) (bound + 1) where
  size := by rw [size_joinThrough, h.size]
  contains i j hij := (related_joinThrough ..).mpr (Or.inl (h.contains i j hij))
  sound i j hij := by
    rcases (related_joinThrough ..).mp hij with hij | ⟨hi, hj⟩
    · exact h.sound i j hij
    · exact (h.sound _ _ hi).trans (h.sound _ _ hj)
  compose pivot hpivot i j hi hj := by
    rw [related_joinThrough] at hi hj ⊢
    by_cases heq : pivot = bound
    · subst heq
      have hi : r.Related i pivot := hi.elim id And.left
      have hj : r.Related pivot j := hj.elim id And.right
      exact Or.inr ⟨hi, hj⟩
    · have hlt : pivot < bound := by omega
      have hcompose := h.compose pivot hlt
      rcases hi with hi | ⟨hi, hi'⟩ <;> rcases hj with hj | ⟨hj, hj'⟩
      · exact Or.inl (hcompose i j hi hj)
      · exact Or.inr ⟨hcompose i bound hi hj, hj'⟩
      · exact Or.inr ⟨hi, hcompose bound j hi' hj⟩
      · exact Or.inr ⟨hi, hj'⟩

private theorem closedBelow_foldl (r : SymbolRelation) (bound : Nat) :
    ClosedBelow r ((List.range bound).foldl SymbolRelation.joinThrough r) bound := by
  induction bound with
  | zero => exact r.closedBelow_zero
  | succ bound ih =>
    rw [List.range_succ, List.foldl_append]
    exact ih.joinThrough

/-- A transitive closure has the same size. -/
@[simp]
theorem size_transitiveClosure (r : SymbolRelation) : r.transitiveClosure.size = r.size :=
  (r.closedBelow_foldl r.size).size

/-- The pass yields the transitive closure. -/
theorem related_transitiveClosure (r : SymbolRelation) (i j : Nat) :
    r.transitiveClosure.Related i j ↔ Relation.TransGen r.Related i j := by
  have hclosed := r.closedBelow_foldl r.size
  refine ⟨hclosed.sound i j, fun h => ?_⟩
  induction h with
  | single h => exact hclosed.contains _ _ h
  | tail _ h ih => exact hclosed.compose _ h.lt_size _ _ ih (hclosed.contains _ _ h)

/-- A reflexive closure has the same size. -/
@[simp]
theorem size_reflexiveClosure (r : SymbolRelation) : r.reflexiveClosure.size = r.size := by
  simp [reflexiveClosure, SymbolRelation.size]

/-- The reflexive closure adds exactly the pairs of equal positions within the size. -/
theorem related_reflexiveClosure (r : SymbolRelation) (i j : Nat) :
    r.reflexiveClosure.Related i j ↔ r.Related i j ∨ (i < r.size ∧ i = j) := by
  by_cases hi : i < r.rows.length
  · simp [Related, reflexiveClosure, List.getD_eq_getElem?_getD, Nat.one_shiftLeft,
      Nat.testBit_two_pow, SymbolRelation.size, hi]
  · simp [Related, reflexiveClosure, List.getD_eq_getElem?_getD, SymbolRelation.size, hi]

/-! ### Rows -/

/-- The row of a symbol within the size lists exactly the positions that it is related to. -/
theorem row_eq_ok {s : Symbol} (hs : s.index < r.size) :
    ∃ symbols, r.row s = .ok symbols ∧
      ∀ x, x ∈ symbols ↔ ∃ j < r.size, r.Related s.index j ∧ Symbol.ofIndex j = x := by
  have hsize : r.size ≠ 0 := Nat.ne_zero_of_lt hs
  refine ⟨_, by rw [row, if_neg hsize, if_pos hs], fun x => ?_⟩
  simp only [List.mem_map, List.mem_filter, List.mem_range, Related, and_assoc]

/-- Chains of positions that stand for pairs of symbols are chains of symbols. -/
theorem transGen_related_iff {link : Symbol → Symbol → Prop}
    (hlink : ∀ i j, r.Related i j ↔ ∃ a b, link a b ∧ i = a.index ∧ j = b.index) (s : Symbol) :
    Relation.TransGen r.Related s.index j ↔ ∃ x, x.index = j ∧ Relation.TransGen link s x := by
  constructor
  · intro h
    induction h with
    | single h =>
      obtain ⟨a, b, hab, ha, rfl⟩ := (hlink _ _).mp h
      obtain rfl := Symbol.index_injective ha
      exact ⟨b, rfl, Relation.TransGen.single hab⟩
    | tail _ h ih =>
      obtain ⟨x, rfl, hx⟩ := ih
      obtain ⟨a, b, hab, ha, rfl⟩ := (hlink _ _).mp h
      obtain rfl := Symbol.index_injective ha
      exact ⟨b, rfl, hx.tail hab⟩
  · rintro ⟨x, rfl, hx⟩
    exact hx.lift Symbol.index fun a b hab => (hlink _ _).mpr ⟨a, b, hab, rfl, rfl⟩

end Chomsky.SymbolRelation
