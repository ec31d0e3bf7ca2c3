/-!
# Grammar symbols

A symbol is known only by its number. Numbers have 32 bits, and a larger number
is taken modulo `2 ^ 32`. What a symbol is called is the business of a symbol
table.
-/

namespace Chomsky

/-- A grammar symbol, known by its 32-bit number. -/
structure Symbol where
  number : UInt32
deriving DecidableEq, Inhabited

namespace Symbol

/-- The number of a symbol as a position in tables and bit sets. -/
def index (s : Symbol) : Nat := s.number.toNat

/-- The symbol at a position, taken modulo `2 ^ 32`. -/
def ofIndex (n : Nat) : Symbol := ⟨UInt32.ofNat n⟩

/-- Numbers of symbols are below `2 ^ 32`. -/
theorem index_lt (s : Symbol) : s.index < UInt32.size := s.number.toNat_lt

/-- A symbol is found again by its number. -/
@[simp]
theorem ofIndex_index (s : Symbol) : ofIndex s.index = s := by
  simp [ofIndex, index]

/-- Numbers wrap at `2 ^ 32`. -/
theorem index_ofIndex (n : Nat) : (ofIndex n).index = n % UInt32.size := by
  simp [ofIndex, index]

/-- A number below `2 ^ 32` is kept. -/
theorem index_ofIndex_of_lt {n : Nat} (h : n < UInt32.size) : (ofIndex n).index = n := by
  rw [index_ofIndex, Nat.mod_eq_of_lt h]

/-- A symbol is determined by its number. -/
theorem index_injective {s t : Symbol} (h : s.index = t.index) : s = t := by
  rw [← ofIndex_index s, h, ofIndex_index]

/-- Symbols are equal if their numbers are. -/
theorem index_inj {s t : Symbol} : s.index = t.index ↔ s = t :=
  ⟨index_injective, congrArg index⟩

/-- Symbols are listed in the order of their numbers. -/
def le (s t : Symbol) : Bool := s.index ≤ t.index

end Symbol

end Chomsky
