import Chomsky.Proofs.ComputedStages
import Chomsky.Symbol.SetStore
import Mathlib.Data.Finset.Card
import Mathlib.Data.List.GetD

/-!
# Bit vectors and finite sets

Commands on a store of symbol sets are followed on three levels. A set is stored as a bit
vector, whose length depends on what was done to the set before and not only on its
members. Each command changes the vector at its place as it would change a plain list of
bits: the list grows to have a bit to be set, and beyond its length all bits count as
clear. What is answered from the vector is what the corresponding finite set answers. So
the lengths never show, and sets of different lengths are equal when their members are.
-/

namespace Chomsky

/-! ### Bit vectors -/

/-- Appends clear bits until the vector has the given length. -/
def growTo (n : Nat) (vector : List Bool) : List Bool :=
  vector ++ List.replicate (n - vector.length) false

/-- Sets or clears the bit of a symbol. The vector grows to have a bit that is to be set. A bit
beyond the length is clear already. -/
def putBit (present : Bool) (vector : List Bool) (s : Symbol) : List Bool :=
  if present then (growTo (s.index + 1) vector).set s.index true else vector.set s.index false

/-- The bit of a symbol, which is clear beyond the length. -/
def bitOf (vector : List Bool) (s : Symbol) : Bool := vector.getD s.index false

/-- The symbols whose bits are set, from left to right. -/
def symbolsIn (vector : List Bool) : List Symbol :=
  ((List.range vector.length).filter fun i => vector.getD i false).map Symbol.ofIndex

/-- A vector grows to the given length unless it is longer. -/
@[simp]
theorem length_growTo (n : Nat) (vector : List Bool) :
    (growTo n vector).length = max vector.length n := by
  simp only [growTo, List.length_append, List.length_replicate]
  omega

/-- Spare bits are clear. -/
@[simp]
theorem getD_growTo (n : Nat) (vector : List Bool) (i : Nat) :
    (growTo n vector).getD i false = vector.getD i false := by
  unfold growTo
  by_cases hi : i < vector.length
  · rw [List.getD_append _ _ _ _ hi]
  · rw [List.getD_append_right _ _ _ _ (by omega), List.getD_eq_default vector _ (by omega),
      List.getD_eq_getElem?_getD, List.getElem?_replicate]
    split <;> rfl

/-- A vector grows only to have a bit that is to be set. -/
theorem length_putBit (present : Bool) (vector : List Bool) (s : Symbol) :
    (putBit present vector s).length =
      if present then max vector.length (s.index + 1) else vector.length := by
  cases present <;> simp [putBit]

/-- The bit at a position that is written is the new one, if the vector has this position. -/
theorem getD_set (vector : List Bool) (n i : Nat) (present : Bool) :
    (vector.set n present).getD i false =
      if i = n then (decide (n < vector.length) && present) else vector.getD i false := by
  rw [List.getD_eq_getElem?_getD, List.getD_eq_getElem?_getD, List.getElem?_set]
  by_cases hi : i = n
  · subst hi
    by_cases hlt : i < vector.length <;> simp [hlt]
  · simp [hi, Ne.symm hi]

/-- Exactly the bit of the symbol changes. -/
theorem getD_putBit (present : Bool) (vector : List Bool) (s : Symbol) (i : Nat) :
    (putBit present vector s).getD i false =
      if i = s.index then present else vector.getD i false := by
  cases present with
  | true =>
    have hlt : s.index < (growTo (s.index + 1) vector).length := by
      rw [length_growTo]
      omega
    simp only [putBit, if_true, getD_set, hlt, decide_true, Bool.true_and, getD_growTo]
  | false =>
    have hputs : putBit false vector s = vector.set s.index false := rfl
    rw [hputs, getD_set, Bool.and_false]

/-- As many symbols are listed as bits are set. -/
theorem length_symbolsIn (vector : List Bool) : (symbolsIn vector).length = vector.count true := by
  have hvector : (List.range vector.length).map (fun i => vector.getD i false) = vector := by
    apply List.ext_getElem
    · simp
    · intro i hi hi'
      rw [List.getElem_map, List.getElem_range, List.getD_eq_getElem _ _ hi']
  conv_rhs => rw [← hvector, List.count, List.countP_map]
  rw [symbolsIn, List.length_map, ← List.countP_eq_length_filter]
  simp [Function.comp_def]

namespace SymbolSet

variable {set : SymbolSet} {vector : List Bool} {members : Finset Symbol}

/-! ### What a set stores -/

/-- The bit vector of a set. -/
def bits (set : SymbolSet) : List Bool := (List.range set.length).map set.ones.contains

/-- The vector has the length of the set. -/
@[simp]
theorem length_bits (set : SymbolSet) : set.bits.length = set.length := by
  simp [bits]

/-- Beyond the length no position is stored, so the bit is clear there as well. -/
theorem getD_bits (set : SymbolSet) (i : Nat) : set.bits.getD i false = set.ones.contains i := by
  by_cases hi : i < set.length
  · simp [bits, List.getD_eq_getElem?_getD, hi]
  · rw [List.getD_eq_default _ _ (by rw [length_bits]; omega)]
    symm
    apply Bool.eq_false_iff.mpr
    intro hmem
    exact hi (set.ones_lt i hmem)

/-- Membership is the bit of the symbol. -/
theorem contains_eq_bitOf (set : SymbolSet) (s : Symbol) : set.contains s = bitOf set.bits s :=
  (set.getD_bits s.index).symm

/-- A vector of the right length with the right bits is the one that is stored. -/
theorem bits_eq (hlength : vector.length = set.length)
    (hbits : ∀ i, vector.getD i false = set.ones.contains i) : set.bits = vector := by
  apply List.ext_getElem
  · rw [length_bits, hlength]
  · intro i hi hi'
    rw [← List.getD_eq_getElem _ false hi, ← List.getD_eq_getElem _ false hi', getD_bits, hbits]

/-- Making room appends clear bits. -/
theorem bits_reserve (set : SymbolSet) (n : Nat) : (set.reserve n).bits = growTo n set.bits := by
  apply bits_eq
  · rw [length_growTo, length_bits]
    rfl
  · intro i
    rw [getD_growTo, getD_bits]
    rfl

/-- Adding a symbol sets its bit. -/
theorem bits_insert (set : SymbolSet) (s : Symbol) :
    (set.insert s).bits = putBit true set.bits s := by
  apply bits_eq
  · rw [length_putBit, length_bits]
    rfl
  · intro i
    rw [getD_putBit, getD_bits, insert, Std.TreeSet.contains_insert]
    by_cases hi : i = s.index <;>
      simp [hi, Std.LawfulEqCmp.compare_eq_iff_eq, Ne.symm]

/-- Removing a symbol clears its bit. -/
theorem bits_erase (set : SymbolSet) (s : Symbol) :
    (set.erase s).bits = putBit false set.bits s := by
  apply bits_eq
  · rw [length_putBit, length_bits]
    rfl
  · intro i
    rw [getD_putBit, getD_bits, erase, Std.TreeSet.contains_erase]
    by_cases hi : i = s.index <;>
      simp [hi, Std.LawfulEqCmp.compare_eq_iff_eq, Ne.symm]

private theorem bits_set (set : SymbolSet) (s : Symbol) (present : Bool) :
    (set.set s present).bits = putBit present set.bits s := by
  cases present with
  | true => exact bits_insert set s
  | false => exact bits_erase set s

private theorem bits_insertMany (set : SymbolSet) (symbols : List Symbol) :
    (set.insertMany symbols).bits = symbols.foldl (putBit true) set.bits := by
  induction symbols generalizing set with
  | nil => rfl
  | cons s rest ih =>
    rw [List.foldl_cons, ← bits_insert]
    exact ih (set.insert s)

private theorem bits_eraseMany (set : SymbolSet) (symbols : List Symbol) :
    (set.eraseMany symbols).bits = symbols.foldl (putBit false) set.bits := by
  induction symbols generalizing set with
  | nil => rfl
  | cons s rest ih =>
    rw [List.foldl_cons, ← bits_erase]
    exact ih (set.erase s)

/-- The members are listed in the order of their bits. Both lists are ascending and have the same
symbols. -/
theorem toList_eq_symbolsIn (set : SymbolSet) : set.toList = symbolsIn set.bits := by
  have hindex : ∀ i, set.bits.getD i false = true → (Symbol.ofIndex i).index = i := fun i hi =>
    Symbol.index_ofIndex_of_lt (set.ones_index i ((set.getD_bits i).symm.trans hi))
  have hascending : Ascending (symbolsIn set.bits) := by
    apply List.pairwise_map.mpr
    refine (List.pairwise_lt_range.filter _).imp_of_mem fun {i j} hi hj hlt => ?_
    rwa [hindex i (List.mem_filter.mp hi).2, hindex j (List.mem_filter.mp hj).2]
  refine Ascending.eq_of_mem_iff set.ascending_toList hascending fun s => ?_
  rw [mem_toList, contains_eq_bitOf, bitOf]
  simp only [symbolsIn, List.mem_map, List.mem_filter, List.mem_range, length_bits]
  constructor
  · intro hs
    have hlt : s.index < set.length := by
      by_contra hbeyond
      rw [List.getD_eq_default _ _ (by rw [length_bits]; omega)] at hs
      cases hs
    exact ⟨s.index, ⟨hlt, hs⟩, Symbol.ofIndex_index s⟩
  · rintro ⟨i, ⟨_, hi⟩, rfl⟩
    rwa [hindex i hi]

private theorem card_eq_length_toList (set : SymbolSet) : set.card = set.toList.length := by
  rw [toList, List.length_map, Std.TreeSet.length_toList]
  rfl

private theorem card_eq_count (set : SymbolSet) : set.card = set.bits.count true := by
  rw [card_eq_length_toList, toList_eq_symbolsIn, length_symbolsIn]

private theorem isEmpty_iff_card (set : SymbolSet) : set.isEmpty = true ↔ set.card = 0 := by
  rw [isEmpty, Std.TreeSet.isEmpty_eq_size_eq_zero, beq_iff_eq]
  rfl

/-- The vector is what the set stores, and every answer is read off it. -/
structure StoredAs (set : SymbolSet) (vector : List Bool) : Prop where
  bits : set.bits = vector
  contains : ∀ s, set.contains s = bitOf vector s
  toList : set.toList = symbolsIn vector
  card : set.card = vector.count true
  isEmpty : set.isEmpty = true ↔ true ∉ vector

private theorem storedAs_of_bits (h : set.bits = vector) : set.StoredAs vector := by
  subst h
  refine ⟨rfl, set.contains_eq_bitOf, set.toList_eq_symbolsIn, set.card_eq_count, ?_⟩
  rw [isEmpty_iff_card, card_eq_count, List.count_eq_zero]

/-! ### What a set stands for -/

/-- Every answer is what the finite set demands. -/
structure Represents (set : SymbolSet) (members : Finset Symbol) : Prop where
  contains : ∀ s, set.contains s = true ↔ s ∈ members
  mem_toList : ∀ s, s ∈ set.toList ↔ s ∈ members
  ascending : Ascending set.toList
  card : set.card = members.card
  isEmpty : set.isEmpty = true ↔ members = ∅

private theorem represents_of_contains (h : ∀ s, set.contains s = true ↔ s ∈ members) :
    set.Represents members := by
  have hmem : ∀ s, s ∈ set.toList ↔ s ∈ members := fun s => SymbolSet.mem_toList.trans (h s)
  have hcard : set.card = members.card := by
    have hmembers : set.toList.toFinset = members := by
      ext s
      rw [List.mem_toFinset, hmem]
    rw [card_eq_length_toList, ← hmembers, List.toFinset_card_of_nodup set.ascending_toList.nodup]
  refine ⟨h, hmem, set.ascending_toList, hcard, ?_⟩
  rw [isEmpty_iff_card, hcard, Finset.card_eq_zero]

/-- Sets are equal exactly if they stand for the same finite set, whatever their lengths are. -/
theorem Represents.beq_iff {other : SymbolSet} {others : Finset Symbol}
    (h : set.Represents members) (h' : other.Represents others) :
    (set == other) = true ↔ members = others := by
  have hbeq : (set == other) = (set.toList == other.toList) := rfl
  rw [hbeq, beq_iff_eq]
  constructor
  · intro heq
    ext s
    rw [← h.mem_toList, heq, h'.mem_toList]
  · rintro rfl
    refine Ascending.eq_of_mem_iff h.ascending h'.ascending fun s => ?_
    rw [h.mem_toList, h'.mem_toList]

end SymbolSet

/-! ### Commands -/

namespace SetCommand

/-- The bit vector that a command puts at its place. -/
def onVectors (vectors : Nat → List Bool) : SetCommand → List Bool
  | insert i s => putBit true (vectors i) s
  | erase i s => putBit false (vectors i) s
  | set i s present => putBit present (vectors i) s
  | reserve i n => growTo n (vectors i)
  | union i j => (symbolsIn (vectors j)).foldl (putBit true) (growTo (vectors j).length (vectors i))
  | inter i j =>
    ((symbolsIn (vectors i)).filter fun s => !bitOf (vectors j) s).foldl (putBit false) (vectors i)
  | insertMany i symbols => symbols.foldl (putBit true) (vectors i)
  | collect _ symbols => symbols.foldl (putBit true) []

/-- The finite set that a command puts at its place. -/
def onFiniteSets (sets : Nat → Finset Symbol) : SetCommand → Finset Symbol
  | insert i s => Insert.insert s (sets i)
  | erase i s => (sets i).erase s
  | set i s present => if present then Insert.insert s (sets i) else (sets i).erase s
  | reserve i _ => sets i
  | union i j => sets i ∪ sets j
  | inter i j => sets i ∩ sets j
  | insertMany i symbols => sets i ∪ symbols.toFinset
  | collect _ symbols => symbols.toFinset

variable {store : SetStore}

/-- Each command changes the stored vectors as it changes plain lists of bits. -/
theorem bits_result (vectors : Nat → List Bool) (hstore : ∀ i, (store i).bits = vectors i)
    (command : SetCommand) : (command.result store).bits = command.onVectors vectors := by
  cases command with
  | insert i s => rw [result, onVectors, SymbolSet.bits_insert, hstore]
  | erase i s => rw [result, onVectors, SymbolSet.bits_erase, hstore]
  | set i s present => rw [result, onVectors, SymbolSet.bits_set, hstore]
  | reserve i n => rw [result, onVectors, SymbolSet.bits_reserve, hstore]
  | union i j =>
    have hlength : (vectors j).length = (store j).length := by rw [← hstore, SymbolSet.length_bits]
    rw [result, onVectors, SymbolSet.union, SymbolSet.bits_insertMany, SymbolSet.bits_reserve,
      SymbolSet.toList_eq_symbolsIn, hstore, hstore, hlength]
  | inter i j =>
    simp only [result, onVectors, SymbolSet.inter, SymbolSet.bits_eraseMany,
      SymbolSet.toList_eq_symbolsIn, SymbolSet.contains_eq_bitOf, hstore]
  | insertMany i symbols => rw [result, onVectors, SymbolSet.bits_insertMany, hstore]
  | collect i symbols =>
    rw [result, onVectors, SymbolSet.ofList, SymbolSet.bits_insertMany]
    rfl

/-- Each command changes the members as it changes finite sets. -/
theorem contains_result (sets : Nat → Finset Symbol)
    (hstore : ∀ i s, (store i).contains s = true ↔ s ∈ sets i) (command : SetCommand) (s : Symbol) :
    (command.result store).contains s = true ↔ s ∈ command.onFiniteSets sets := by
  cases command with
  | insert i x => simp [result, onFiniteSets, hstore]
  | erase i x => simp [result, onFiniteSets, hstore]
  | set i x present => cases present <;> simp [result, onFiniteSets, SymbolSet.set, hstore]
  | reserve i n => simp [result, onFiniteSets, hstore]
  | union i j => simp [result, onFiniteSets, hstore, or_comm]
  | inter i j => simp [result, onFiniteSets, hstore]
  | insertMany i symbols => simp [result, onFiniteSets, hstore, or_comm]
  | collect i symbols => simp [result, onFiniteSets]

end SetCommand

/-- What the places hold after commands from left to right, given what a command puts at its
place. -/
def runCommands {α : Type} (result : (Nat → α) → SetCommand → α) (places : Nat → α)
    (commands : List SetCommand) : Nat → α :=
  commands.foldl
    (fun places command => Function.update places command.target (result places command)) places

/-- What single commands keep between a store and other places, runs keep. -/
theorem SetStore.run_related {α : Type} (related : SymbolSet → α → Prop)
    {result : (Nat → α) → SetCommand → α}
    (hstep : ∀ (store : SetStore) (places : Nat → α), (∀ i, related (store i) (places i)) →
      ∀ command : SetCommand, related (command.result store) (result places command))
    (commands : List SetCommand) {store : SetStore} {places : Nat → α}
    (hstore : ∀ i, related (store i) (places i)) (i : Nat) :
    related (store.run commands i) (runCommands result places commands i) := by
  induction commands generalizing store places with
  | nil => exact hstore i
  | cons command rest ih =>
    have hnext : ∀ j, related (store.apply command j)
        (Function.update places command.target (result places command) j) := by
      intro j
      by_cases hj : j = command.target
      · subst hj
        simpa [SetStore.apply] using hstep store places hstore command
      · simpa [SetStore.apply, hj] using hstore j
    exact ih hnext

/-- After any commands on sets that are empty at first, each set stores the bit vector that the
commands make of an empty list of bits, and answers as the finite set that they make of the empty
set. Two of the sets are equal exactly if their finite sets are. -/
theorem run_refines_finite_sets (commands : List SetCommand) :
    (∀ i, (SetStore.empty.run commands i).StoredAs
        (runCommands SetCommand.onVectors (fun _ => []) commands i) ∧
      (SetStore.empty.run commands i).Represents
        (runCommands SetCommand.onFiniteSets (fun _ => ∅) commands i)) ∧
    ∀ i j, (SetStore.empty.run commands i == SetStore.empty.run commands j) = true ↔
      runCommands SetCommand.onFiniteSets (fun _ => ∅) commands i =
        runCommands SetCommand.onFiniteSets (fun _ => ∅) commands j := by
  have hvectors : ∀ i, (SetStore.empty.run commands i).bits =
      runCommands SetCommand.onVectors (fun _ => []) commands i :=
    SetStore.run_related (fun set vector => set.bits = vector)
      (fun _ => SetCommand.bits_result) commands fun _ => rfl
  have hmembers : ∀ i, (SetStore.empty.run commands i).Represents
      (runCommands SetCommand.onFiniteSets (fun _ => ∅) commands i) := by
    intro i
    apply SymbolSet.represents_of_contains
    refine SetStore.run_related (fun set members => ∀ s, set.contains s = true ↔ s ∈ members)
      (fun _ => SetCommand.contains_result) commands (fun _ s => ?_) i
    simp only [Finset.notMem_empty, iff_false, Bool.not_eq_true]
    rfl
  exact ⟨fun i => ⟨SymbolSet.storedAs_of_bits (hvectors i), hmembers i⟩,
    fun i j => (hmembers i).beq_iff (hmembers j)⟩

-- A symbol that came and went leaves a longer vector behind, which does not show.
example :
    let store := SetStore.empty.run [.insert 0 ⟨40⟩, .erase 0 ⟨40⟩]
    (store 0).length = 41 ∧ (store 1).length = 0 ∧ (store 0 == store 1) = true := by
  decide +kernel

end Chomsky
