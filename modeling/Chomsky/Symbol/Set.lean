import Chomsky.Symbol
import Std.Data.TreeSet.Lemmas

/-!
# Sets of symbols

A set of symbols is a bit vector over symbol numbers, of which the positions that
are set are stored. The vector grows when a symbol beyond its length joins, and a
symbol beyond its length is not a member. Spare positions at the end do not
matter: two sets are equal when they have the same members, whatever their
lengths.
-/

namespace Chomsky

/-- A set of symbols. The bit vector has a length, and symbol `i` is a member if position `i` is
set. Only positions that are numbers of symbols are set. -/
structure SymbolSet where
  length : Nat := 0
  ones : Std.TreeSet Nat := ∅
  ones_lt : ∀ i ∈ ones, i < length := by simp
  ones_index : ∀ i ∈ ones, i < UInt32.size := by simp

namespace SymbolSet

/-- The set without members. -/
def empty : SymbolSet := {}

instance : EmptyCollection SymbolSet := ⟨empty⟩

instance : Inhabited SymbolSet := ⟨empty⟩

/-- Tests membership. -/
def contains (set : SymbolSet) (s : Symbol) : Bool := set.ones.contains s.index

instance : Membership Symbol SymbolSet := ⟨fun set s => set.contains s = true⟩

instance (s : Symbol) (set : SymbolSet) : Decidable (s ∈ set) :=
  inferInstanceAs (Decidable (set.contains s = true))

/-- Makes room for the symbols below `n`, none of which joins. -/
def reserve (set : SymbolSet) (n : Nat) : SymbolSet where
  length := max set.length n
  ones := set.ones
  ones_lt i hi := Nat.lt_of_lt_of_le (set.ones_lt i hi) (Nat.le_max_left ..)
  ones_index := set.ones_index

/-- Adds a symbol. -/
def insert (set : SymbolSet) (s : Symbol) : SymbolSet where
  length := max set.length (s.index + 1)
  ones := set.ones.insert s.index
  ones_lt i hi := by
    rcases Std.TreeSet.mem_insert.1 hi with hi | hi
    · have := Std.LawfulEqCmp.eq_of_compare hi
      omega
    · have := set.ones_lt i hi
      omega
  ones_index i hi := by
    rcases Std.TreeSet.mem_insert.1 hi with hi | hi
    · exact Std.LawfulEqCmp.eq_of_compare hi ▸ s.index_lt
    · exact set.ones_index i hi

/-- Removes a symbol. -/
def erase (set : SymbolSet) (s : Symbol) : SymbolSet where
  length := set.length
  ones := set.ones.erase s.index
  ones_lt i hi := set.ones_lt i (Std.TreeSet.mem_of_mem_erase hi)
  ones_index i hi := set.ones_index i (Std.TreeSet.mem_of_mem_erase hi)

/-- Adds or removes a symbol. -/
def set (set : SymbolSet) (s : Symbol) (present : Bool) : SymbolSet :=
  if present then set.insert s else set.erase s

/-- Adds symbols one after the other. -/
def insertMany (set : SymbolSet) (symbols : List Symbol) : SymbolSet :=
  symbols.foldl insert set

/-- Removes symbols one after the other. -/
def eraseMany (set : SymbolSet) (symbols : List Symbol) : SymbolSet :=
  symbols.foldl erase set

/-- The set of the listed symbols. -/
def ofList (symbols : List Symbol) : SymbolSet := empty.insertMany symbols

/-- The members in the order of their numbers. -/
def toList (set : SymbolSet) : List Symbol := set.ones.toList.map Symbol.ofIndex

/-- Adds all members of another set. -/
def union (set other : SymbolSet) : SymbolSet :=
  (set.reserve other.length).insertMany other.toList

/-- Keeps only the members of another set. -/
def inter (set other : SymbolSet) : SymbolSet :=
  set.eraseMany (set.toList.filter fun s => !other.contains s)

/-- The number of members. -/
def card (set : SymbolSet) : Nat := set.ones.size

/-- Tests whether there is no member. -/
def isEmpty (set : SymbolSet) : Bool := set.ones.isEmpty

instance : BEq SymbolSet := ⟨fun set other => set.toList == other.toList⟩

/-- Membership is what the test finds. -/
theorem mem_iff {s : Symbol} {set : SymbolSet} : s ∈ set ↔ set.contains s = true := Iff.rfl

/-- Nothing is a member of the empty set. -/
@[simp]
theorem contains_empty (s : Symbol) : empty.contains s = false := rfl

/-- A symbol beyond the length is not a member. -/
theorem contains_of_length_le {set : SymbolSet} {s : Symbol} (h : set.length ≤ s.index) :
    set.contains s = false := by
  apply Bool.eq_false_iff.2
  intro hs
  have := set.ones_lt s.index hs
  omega

/-- Spare positions hold no members. -/
@[simp]
theorem contains_reserve (set : SymbolSet) (n : Nat) (s : Symbol) :
    (set.reserve n).contains s = set.contains s := rfl

/-- Exactly the old members and the new symbol are members. -/
@[simp]
theorem contains_insert (set : SymbolSet) (s x : Symbol) :
    (set.insert s).contains x = (x == s || set.contains x) := by
  simp [contains, insert, Std.TreeSet.contains_insert, Bool.beq_eq_decide_eq,
    Std.LawfulEqCmp.compare_eq_iff_eq, Symbol.index_inj, @eq_comm _ s x]

/-- Exactly the old members other than the removed symbol are members. -/
@[simp]
theorem contains_erase (set : SymbolSet) (s x : Symbol) :
    (set.erase s).contains x = (x != s && set.contains x) := by
  simp [contains, erase, Std.TreeSet.contains_erase, Bool.beq_eq_decide_eq, bne,
    Std.LawfulEqCmp.compare_eq_iff_eq, Symbol.index_inj, @eq_comm _ s x]

/-- Exactly the old members and the new symbols are members. -/
@[simp]
theorem contains_insertMany (set : SymbolSet) (symbols : List Symbol) (x : Symbol) :
    (set.insertMany symbols).contains x = (symbols.contains x || set.contains x) := by
  induction symbols generalizing set with
  | nil => simp [insertMany]
  | cons s rest ih =>
    have hrest := ih (set.insert s)
    simp only [insertMany, List.foldl_cons] at hrest ⊢
    rw [hrest, contains_insert, List.contains_cons]
    cases x == s <;> cases rest.contains x <;> rfl

/-- Exactly the old members other than the removed symbols are members. -/
@[simp]
theorem contains_eraseMany (set : SymbolSet) (symbols : List Symbol) (x : Symbol) :
    (set.eraseMany symbols).contains x = (!symbols.contains x && set.contains x) := by
  induction symbols generalizing set with
  | nil => simp [eraseMany]
  | cons s rest ih =>
    have hrest := ih (set.erase s)
    simp only [eraseMany, List.foldl_cons] at hrest ⊢
    rw [hrest, contains_erase, List.contains_cons, bne]
    cases x == s <;> cases rest.contains x <;> rfl

/-- A set of listed symbols has these members. -/
@[simp]
theorem contains_ofList (symbols : List Symbol) (x : Symbol) :
    (ofList symbols).contains x = symbols.contains x := by
  simp [ofList]

/-- Exactly the members are listed. -/
@[simp]
theorem mem_toList {set : SymbolSet} {s : Symbol} : s ∈ set.toList ↔ set.contains s = true := by
  simp only [toList, List.mem_map, Std.TreeSet.mem_toList]
  constructor
  · rintro ⟨i, hi, rfl⟩
    rwa [contains, Symbol.index_ofIndex_of_lt (set.ones_index i hi)]
  · exact fun hs => ⟨s.index, hs, Symbol.ofIndex_index s⟩

private theorem contains_toList (set : SymbolSet) (s : Symbol) :
    set.toList.contains s = set.contains s := by
  rw [Bool.eq_iff_iff, List.contains_iff_mem, mem_toList]

/-- A union has the members of both sets. -/
@[simp]
theorem contains_union (set other : SymbolSet) (s : Symbol) :
    (set.union other).contains s = (other.contains s || set.contains s) := by
  rw [union, contains_insertMany, contains_toList, contains_reserve]

/-- An intersection has the members that both sets have. -/
@[simp]
theorem contains_inter (set other : SymbolSet) (s : Symbol) :
    (set.inter other).contains s = (set.contains s && other.contains s) := by
  have hlisted : (set.toList.filter fun x => !other.contains x).contains s
      = (set.contains s && !other.contains s) := by
    rw [Bool.eq_iff_iff, List.contains_iff_mem, List.mem_filter, mem_toList, Bool.and_eq_true]
  rw [inter, contains_eraseMany, hlisted]
  cases set.contains s <;> cases other.contains s <;> rfl

end SymbolSet

end Chomsky
