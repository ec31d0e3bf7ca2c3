import Chomsky.Proofs.Splitting
import Mathlib.Data.Set.Function

/-!
# Names of blocks

The rules of a splitting, and the pairs that its names stand for, depend only on
the names of the parts of which blocks and right sides are composed. One more
block or one more rule adds a single rule.
-/

namespace Chomsky

/-- A long sequence is composed of two known parts: its last symbol and what comes before. -/
def Composed (known : Set (List Symbol)) (symbols : List Symbol) : Prop :=
  ∀ block s, block ≠ [] → symbols = block ++ [s] → block ∈ known ∧ [s] ∈ known

section Names

variable {name name' : List Symbol → Symbol} {known known' blocks : Set (List Symbol)}
  {block rhs symbols : List Symbol} {rules : List Rule} {rule : Rule} {s : Symbol}

/-- More known blocks compose no less. -/
theorem Composed.mono (h : Composed known symbols) (hsubset : known ⊆ known') :
    Composed known' symbols := fun block s hne heq =>
  ⟨hsubset (h block s hne heq).1, hsubset (h block s hne heq).2⟩

/-- A known block with one more known symbol is composed. -/
theorem composed_concat (hblock : block ∈ known) (hs : [s] ∈ known) :
    Composed known (block ++ [s]) := by
  intro block' s' _ heq
  obtain ⟨rfl, hlast⟩ := List.append_inj' heq rfl
  exact ⟨hblock, hlast ▸ hs⟩

/-- Of a single symbol nothing has to be known, as it is not long. -/
theorem composed_singleton (known : Set (List Symbol)) (s : Symbol) : Composed known [s] := by
  intro block x hne heq
  simp [List.singleton_eq_append_iff, hne] at heq

/-- A definition depends only on the names of the parts. -/
theorem Defines.congr (h : Defines name block rhs) (hcomposed : Composed known block)
    (heq : Set.EqOn name name' known) : Defines name' block rhs := by
  cases h with
  | wrapper s => exact .wrapper s
  | @helper block hne s =>
    obtain ⟨hleft, hright⟩ := hcomposed block s hne rfl
    rw [heq hleft, heq hright]
    exact .helper hne s

/-- The rules of a splitting depend only on the names of the parts. -/
theorem SplitRule.congr (h : SplitRule blocks rules name rule) (hsubset : blocks ⊆ known)
    (hblocks : ∀ block ∈ blocks, Composed known block)
    (hrules : ∀ rule ∈ rules, Composed known rule.rhs) (heq : Set.EqOn name name' known) :
    SplitRule blocks rules name' rule := by
  cases h with
  | short hrule hlength => exact .short hrule hlength
  | @definition block rhs hblock hdefines =>
    rw [heq (hsubset hblock)]
    exact .definition hblock (hdefines.congr (hblocks block hblock) heq)
  | @long lhs s block hne hrule =>
    obtain ⟨hleft, hright⟩ := hrules _ hrule block s hne rfl
    rw [heq hleft, heq hright]
    exact .long hne hrule

/-- The symbol names a block composed of two parts with the given names. -/
def NamesPair (blocks : Set (List Symbol)) (name : List Symbol → Symbol) (left right s : Symbol) :
    Prop :=
  ∃ block x, block ≠ [] ∧ block ++ [x] ∈ blocks ∧ name block = left ∧ name [x] = right ∧
    name (block ++ [x]) = s

/-- Names that agree on the known blocks name the same pairs. -/
theorem NamesPair.congr {left right : Symbol} (h : NamesPair blocks name left right s)
    (hsubset : blocks ⊆ known) (hblocks : ∀ block ∈ blocks, Composed known block)
    (heq : Set.EqOn name name' known) : NamesPair blocks name' left right s := by
  obtain ⟨block, x, hne, hblock, rfl, rfl, rfl⟩ := h
  obtain ⟨hleft, hright⟩ := hblocks _ hblock block x hne rfl
  exact ⟨block, x, hne, hblock, (heq hleft).symm, (heq hright).symm, (heq (hsubset hblock)).symm⟩

/-- A pair is named by an earlier block or by the new one. -/
theorem namesPair_insert_iff {left right : Symbol} :
    NamesPair (insert block blocks) name left right s ↔ NamesPair blocks name left right s ∨
      ∃ init x, init ≠ [] ∧ block = init ++ [x] ∧ name init = left ∧ name [x] = right ∧
        name block = s := by
  constructor
  · rintro ⟨init, x, hne, heq | hblock, hleft, hright, hs⟩
    · exact Or.inr ⟨init, x, hne, heq.symm, hleft, hright, heq ▸ hs⟩
    · exact Or.inl ⟨init, x, hne, hblock, hleft, hright, hs⟩
  · rintro (⟨init, x, hne, hblock, hrest⟩ | ⟨init, x, hne, rfl, hrest⟩)
    · exact ⟨init, x, hne, Or.inr hblock, hrest⟩
    · exact ⟨init, x, hne, Or.inl rfl, hrest⟩

/-- With one more block there is one more rule, the definition of the block. -/
theorem splitRule_insert_iff (hdefines : Defines name block rhs) :
    SplitRule (insert block blocks) rules name rule ↔
      rule = ⟨name block, rhs⟩ ∨ SplitRule blocks rules name rule := by
  constructor
  · intro h
    cases h with
    | short hrule hlength => exact Or.inr (.short hrule hlength)
    | definition hblock hdefines' =>
      rcases hblock with rfl | hblock
      · rw [hdefines.unique hdefines']
        exact Or.inl rfl
      · exact Or.inr (.definition hblock hdefines')
    | long hne hrule => exact Or.inr (.long hne hrule)
  · rintro (rfl | h)
    · exact .definition (Set.mem_insert _ _) hdefines
    · cases h with
      | short hrule hlength => exact .short hrule hlength
      | definition hblock hdefines' => exact .definition (Set.mem_insert_of_mem _ hblock) hdefines'
      | long hne hrule => exact .long hne hrule

/-- With one more rule there are the rules that this one alone gives. -/
theorem splitRule_concat_iff {new : Rule} : SplitRule blocks (rules ++ [new]) name rule ↔
    SplitRule ∅ [new] name rule ∨ SplitRule blocks rules name rule := by
  constructor
  · intro h
    cases h with
    | short hrule hlength =>
      rcases List.mem_append.mp hrule with hrule | hrule
      · exact Or.inr (.short hrule hlength)
      · exact Or.inl (.short hrule hlength)
    | definition hblock hdefines => exact Or.inr (.definition hblock hdefines)
    | long hne hrule =>
      rcases List.mem_append.mp hrule with hrule | hrule
      · exact Or.inr (.long hne hrule)
      · exact Or.inl (.long hne hrule)
  · rintro (h | h)
    · cases h with
      | short hrule hlength => exact .short (List.mem_append_right _ hrule) hlength
      | definition hblock _ => exact absurd hblock (Set.notMem_empty _)
      | long hne hrule => exact .long hne (List.mem_append_right _ hrule)
    · cases h with
      | short hrule hlength => exact .short (List.mem_append_left _ hrule) hlength
      | definition hblock hdefines => exact .definition hblock hdefines
      | long hne hrule => exact .long hne (List.mem_append_left _ hrule)

/-- A block with one symbol more is longer than one symbol. -/
theorem length_concat_of_ne_nil (hne : block ≠ []) (s : Symbol) : ¬(block ++ [s]).length ≤ 1 := by
  have hpos := List.length_pos_of_ne_nil hne
  rw [List.length_append, List.length_singleton]
  omega

/-- Of a sequence of one symbol at most nothing has to be known. -/
theorem composed_of_length_le (hlength : symbols.length ≤ 1) :
    Composed known symbols := by
  rintro block s hne rfl
  exact absurd hlength (length_concat_of_ne_nil hne s)

/-- A short rule gives itself. -/
theorem splitRule_short_iff {new : Rule} (hlength : new.rhs.length ≤ 1) :
    SplitRule ∅ [new] name rule ↔ rule = new := by
  constructor
  · intro h
    cases h with
    | short hrule _ => exact List.mem_singleton.mp hrule
    | definition hblock _ => exact absurd hblock (Set.notMem_empty _)
    | @long lhs s block hne hrule =>
      rw [← List.mem_singleton.mp hrule] at hlength
      exact absurd hlength (length_concat_of_ne_nil hne s)
  · rintro rfl
    exact .short (List.mem_singleton_self rule) hlength

/-- A long rule gives what is left of it. -/
theorem splitRule_long_iff {lhs x : Symbol} (hne : block ≠ []) :
    SplitRule ∅ [⟨lhs, block ++ [x]⟩] name rule ↔ rule = ⟨lhs, [name block, name [x]]⟩ := by
  constructor
  · intro h
    cases h with
    | short hrule hlength =>
      rw [List.mem_singleton.mp hrule] at hlength
      exact absurd hlength (length_concat_of_ne_nil hne x)
    | definition hblock _ => exact absurd hblock (Set.notMem_empty _)
    | long _ hrule =>
      obtain ⟨rfl, hrhs⟩ := Rule.mk.inj (List.mem_singleton.mp hrule)
      obtain ⟨rfl, hlast⟩ := List.append_inj' hrhs rfl
      rw [List.singleton_inj.mp hlast]
  · rintro rfl
    exact .long hne (List.mem_singleton_self _)

end Names

end Chomsky
