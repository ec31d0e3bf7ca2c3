import Chomsky.Proofs.EpsilonFree
import Mathlib.Algebra.Group.Nat.Defs

/-!
# The order of variants

Every way of leaving out nullable symbols is listed once for each choice of nullable
positions, and the place in the list is the choice written in binary: the entry at place
`m` leaves out the `j`-th nullable position exactly if bit `j` of `m` is set. The whole
right side comes first. If nothing can be left at all, that is the last choice, and it is
the only one that the variants lack.
-/

namespace Chomsky

/-! ### Positions -/

/-- The entries at the positions that are marked. -/
def entriesAt {α : Type} (marked : Nat → Bool) (entries : List α) : List α :=
  (entries.zipIdx.filter fun entry => marked entry.2).map Prod.fst

/-- The positions of nullable symbols, from left to right. -/
def nullablePositions (nullable : SymbolSet) (form : List Symbol) : List Nat :=
  (form.zipIdx.filter fun entry => nullable.contains entry.1).map Prod.snd

/-- The form without the symbols at the listed positions. -/
def withoutPositions (dropped : List Nat) (form : List Symbol) : List Symbol :=
  entriesAt (fun i => !dropped.contains i) form

private theorem entriesAt_concat {α : Type} (marked : Nat → Bool) (entries : List α) (a : α) :
    entriesAt marked (entries ++ [a]) =
      entriesAt marked entries ++ if marked entries.length then [a] else [] := by
  by_cases h : marked entries.length <;> simp [entriesAt, List.zipIdx_append, h]

private theorem entriesAt_congr {α : Type} {marked marked' : Nat → Bool} {entries : List α}
    (h : ∀ i < entries.length, marked i = marked' i) :
    entriesAt marked entries = entriesAt marked' entries := by
  unfold entriesAt
  congr 1
  apply List.filter_congr
  intro entry hentry
  exact h entry.2 (List.snd_lt_of_mem_zipIdx hentry)

private theorem entriesAt_subset {α : Type} (marked : Nat → Bool) (entries : List α) :
    entriesAt marked entries ⊆ entries := by
  intro a ha
  obtain ⟨entry, hentry, rfl⟩ := List.mem_map.mp ha
  exact List.fst_mem_of_mem_zipIdx (List.mem_filter.mp hentry).1

variable {nullable : SymbolSet} {form variant : List Symbol} {dropped : List Nat}

private theorem nullablePositions_concat (nullable : SymbolSet) (form : List Symbol) (s : Symbol) :
    nullablePositions nullable (form ++ [s]) =
      nullablePositions nullable form ++ if nullable.contains s then [form.length] else [] := by
  by_cases h : nullable.contains s <;> simp [nullablePositions, List.zipIdx_append, h]

private theorem mem_nullablePositions_iff {i : Nat} :
    i ∈ nullablePositions nullable form ↔ ∃ s ∈ nullable, form[i]? = some s := by
  simp only [nullablePositions, List.mem_map, List.mem_filter, Prod.exists, exists_eq_right,
    List.mk_mem_zipIdx_iff_getElem?]
  exact exists_congr fun s => and_comm

/-- The position after the form is none of its nullable positions. -/
theorem length_not_mem_entriesAt (marked : Nat → Bool) (nullable : SymbolSet) (form : List Symbol) :
    form.length ∉ entriesAt marked (nullablePositions nullable form) := by
  intro hmem
  obtain ⟨s, _, hs⟩ := mem_nullablePositions_iff.mp (entriesAt_subset _ _ hmem)
  have hlt : form.length < form.length := (List.getElem?_eq_some_iff.mp hs).1
  omega

/-- The last symbol is kept unless its position is dropped. -/
theorem withoutPositions_concat (dropped : List Nat) (form : List Symbol) (s : Symbol) :
    withoutPositions dropped (form ++ [s]) =
      withoutPositions dropped form ++ if form.length ∈ dropped then [] else [s] := by
  by_cases h : form.length ∈ dropped <;> simp [withoutPositions, entriesAt_concat, h]

/-- A position beyond the form cannot be dropped from it. -/
theorem withoutPositions_append_length (dropped : List Nat) (form : List Symbol) :
    withoutPositions (dropped ++ [form.length]) form = withoutPositions dropped form := by
  apply entriesAt_congr
  intro i hi
  have hne : i ≠ form.length := by omega
  simp [hne]

/-- Dropping nullable positions leaves out nullable symbols. Positions beyond the form do not
matter, so the shorter form in the induction may have the same ones dropped. -/
theorem omits_withoutPositions
    (hdropped : ∀ i ∈ dropped, ∀ s, form[i]? = some s → s ∈ nullable) :
    Omits nullable form (withoutPositions dropped form) := by
  induction form using List.reverseRecOn with
  | nil => exact Omits.nil
  | append_singleton form s ih =>
    have hform : Omits nullable form (withoutPositions dropped form) := by
      apply ih
      intro i hi x hx
      have hlt : i < form.length := (List.getElem?_eq_some_iff.mp hx).1
      exact hdropped i hi x (by rw [List.getElem?_append_left hlt, hx])
    rw [withoutPositions_concat, Omits.concat_iff]
    by_cases hlast : form.length ∈ dropped
    · right
      refine ⟨hdropped _ hlast s (List.getElem?_concat_length ..), ?_⟩
      simpa [hlast] using hform
    · left
      exact ⟨withoutPositions dropped form, by simp [hlast], hform⟩

/-! ### Places in the list -/

private theorem length_omissions (nullable : SymbolSet) (form : List Symbol) :
    (omissions nullable form).length = 2 ^ (nullablePositions nullable form).length := by
  induction form using List.reverseRecOn with
  | nil => rfl
  | append_singleton form s ih =>
    rw [omissions_concat, nullablePositions_concat]
    by_cases hs : nullable.contains s
    · simp only [hs, if_true, List.length_append, List.length_map, List.length_singleton, ih,
        Nat.pow_succ]
      omega
    · simp [hs, ih]

/-- One level of the doubling. The first half keeps the last symbol: its places are below the
weight of the last bit, which is therefore clear. The second half leaves it out, and its lower bits
are the place in the shorter list. -/
theorem getElem?_omissions (nullable : SymbolSet) (form : List Symbol) :
    ∀ m < 2 ^ (nullablePositions nullable form).length,
      (omissions nullable form)[m]? =
        some (withoutPositions (entriesAt m.testBit (nullablePositions nullable form)) form) := by
  induction form using List.reverseRecOn with
  | nil =>
    intro m hm
    have hzero : m < 2 ^ 0 := hm
    obtain rfl : m = 0 := by omega
    rfl
  | append_singleton form s ih =>
    intro m hm
    have hlength := length_omissions nullable form
    have hkept := length_not_mem_entriesAt m.testBit nullable form
    rw [nullablePositions_concat] at hm
    rw [omissions_concat, nullablePositions_concat, withoutPositions_concat]
    by_cases hs : nullable.contains s
    · simp only [hs, if_true, List.length_append, List.length_singleton, Nat.pow_succ] at hm ⊢
      rw [entriesAt_concat]
      generalize hk : (nullablePositions nullable form).length = k at *
      by_cases hsmall : m < 2 ^ k
      · have hbit : m.testBit k = false := Nat.testBit_lt_two_pow hsmall
        rw [List.getElem?_append_left (by simpa [hlength] using hsmall), List.getElem?_map,
          ih m hsmall]
        simp [hbit, hkept]
      · obtain ⟨r, hr, rfl⟩ : ∃ r < 2 ^ k, m = 2 ^ k + r := ⟨m - 2 ^ k, by omega, by omega⟩
        have hbit : (2 ^ k + r).testBit k = true := by
          rw [Nat.testBit_two_pow_add_eq, Nat.testBit_lt_two_pow hr, Bool.not_false]
        have hlow : entriesAt (2 ^ k + r).testBit (nullablePositions nullable form) =
            entriesAt r.testBit (nullablePositions nullable form) :=
          entriesAt_congr fun j hj => Nat.testBit_two_pow_add_gt (by omega) r
        rw [List.getElem?_append_right (by simp [hlength]), List.length_map, hlength,
          Nat.add_sub_cancel_left, ih r hr, hlow, hbit]
        simp [withoutPositions_append_length]
    · simp only [hs, Bool.false_eq_true, if_false, List.append_nil] at hm ⊢
      rw [List.getElem?_map, ih m hm]
      simp [hkept]

/-! ### What is returned -/

/-- The whole form comes first. -/
theorem head?_omissions (nullable : SymbolSet) (form : List Symbol) :
    (omissions nullable form).head? = some form := by
  induction form using List.reverseRecOn with
  | nil => rfl
  | append_singleton form s ih =>
    rw [omissions_concat]
    by_cases hs : nullable.contains s <;> simp [hs, ih]

private theorem head?_variants (nullable : SymbolSet) (form : List Symbol) :
    (variants nullable form).head? = if form = [] then none else some form := by
  by_cases hform : form = []
  · rw [hform]
    rfl
  · obtain ⟨rest, hrest⟩ := List.head?_eq_some_iff.mp (head?_omissions nullable form)
    rw [variants, hrest]
    simp [hform]

private theorem variants_concat (nullable : SymbolSet) (form : List Symbol) (s : Symbol) :
    variants nullable (form ++ [s]) =
      (omissions nullable form).map (· ++ [s]) ++
        if nullable.contains s then variants nullable form else [] := by
  have hkept : ((omissions nullable form).map (· ++ [s])).filter (fun variant => !variant.isEmpty) =
      (omissions nullable form).map (· ++ [s]) := by
    apply List.filter_eq_self.mpr
    intro variant hvariant
    obtain ⟨kept, _, rfl⟩ := List.mem_map.mp hvariant
    simp
  rw [variants, omissions_concat]
  by_cases hs : nullable.contains s
  · simp only [hs, if_true, List.filter_append, hkept]
    rfl
  · simp [hs, hkept]

/-- The empty entry is the last one, and it is there exactly if all symbols are nullable. -/
theorem omissions_eq_variants_append (nullable : SymbolSet) (form : List Symbol) :
    omissions nullable form =
      variants nullable form ++ if form.all nullable.contains then [[]] else [] := by
  induction form using List.reverseRecOn with
  | nil => rfl
  | append_singleton form s ih =>
    rw [variants_concat, omissions_concat, List.all_append]
    by_cases hs : nullable.contains s
    · simp only [hs, if_true, List.all_cons, List.all_nil, Bool.and_true, List.append_assoc]
      rw [← ih]
    · simp [hs]

/-- A variant is what is left of the form when some nullable positions are dropped. -/
theorem mem_variants_iff_withoutPositions :
    variant ∈ variants nullable form ↔
      variant ≠ [] ∧ ∃ dropped ⊆ nullablePositions nullable form,
        variant = withoutPositions dropped form := by
  constructor
  · intro h
    obtain ⟨hmem, hne⟩ := List.mem_filter.mp h
    obtain ⟨m, hm⟩ := List.mem_iff_getElem?.mp hmem
    have hlt : m < 2 ^ (nullablePositions nullable form).length := by
      rw [← length_omissions]
      exact (List.getElem?_eq_some_iff.mp hm).1
    rw [getElem?_omissions nullable form m hlt] at hm
    exact ⟨by simpa using hne, _, entriesAt_subset _ _, (Option.some.inj hm).symm⟩
  · rintro ⟨hne, dropped, hdropped, rfl⟩
    refine mem_variants_iff.mpr ⟨omits_withoutPositions fun i hi s hs => ?_, hne⟩
    obtain ⟨x, hx, hget⟩ := mem_nullablePositions_iff.mp (hdropped hi)
    rw [hget] at hs
    exact Option.some.inj hs ▸ hx

/-- With `k` nullable positions there are `2 ^ k` ways of leaving some out, listed in the order of
the choices in binary. The variants are this list without the empty entry, which can only be the
last. They start with the right side itself, and are exactly the non-empty results of dropping some
nullable positions. -/
theorem variants_enumerate (nullable : SymbolSet) (rhs : List Symbol) :
    (omissions nullable rhs).length = 2 ^ (nullablePositions nullable rhs).length ∧
    (∀ m < 2 ^ (nullablePositions nullable rhs).length,
      (omissions nullable rhs)[m]? =
        some (withoutPositions (entriesAt m.testBit (nullablePositions nullable rhs)) rhs)) ∧
    omissions nullable rhs =
      variants nullable rhs ++ (if rhs.all nullable.contains then [[]] else []) ∧
    (variants nullable rhs).head? = (if rhs = [] then none else some rhs) ∧
    ∀ variant, variant ∈ variants nullable rhs ↔
      variant ≠ [] ∧ ∃ dropped ⊆ nullablePositions nullable rhs,
        variant = withoutPositions dropped rhs :=
  ⟨length_omissions nullable rhs, getElem?_omissions nullable rhs,
    omissions_eq_variants_append nullable rhs, head?_variants nullable rhs,
    fun _ => mem_variants_iff_withoutPositions⟩

example : variants (.ofList [⟨0⟩, ⟨2⟩]) [⟨0⟩, ⟨1⟩, ⟨2⟩] =
    [[⟨0⟩, ⟨1⟩, ⟨2⟩], [⟨1⟩, ⟨2⟩], [⟨0⟩, ⟨1⟩], [⟨1⟩]] := by
  decide +kernel

end Chomsky
