/-!
# Sets of names

A set of names is a list in strictly ascending order. Names are ordered by their
characters from left to right, and characters by their code points.
-/

namespace Chomsky

/-- A set of names, listed in ascending order. -/
structure NameSet where
  names : List String := []
  sorted : names.Pairwise (· < ·) := by exact List.Pairwise.nil
deriving DecidableEq

/-- Inserts a name into an ascending list, unless it is there already. -/
def insertName (name : String) : List String → List String
  | [] => [name]
  | first :: rest =>
    if name < first then name :: first :: rest
    else if first < name then first :: insertName name rest
    else first :: rest

/-- One name is added. -/
theorem mem_insertName {name other : String} {names : List String} :
    other ∈ insertName name names ↔ other = name ∨ other ∈ names := by
  induction names with
  | nil => simp [insertName]
  | cons first rest ih =>
    unfold insertName
    split
    · simp
    · split
      · simp [ih, or_left_comm]
      · rename_i hle hge
        have heq : name = first := String.le_antisymm (String.not_lt.1 hge) (String.not_lt.1 hle)
        simp [heq]

private theorem pairwise_insertName (name : String) {names : List String}
    (h : names.Pairwise (· < ·)) : (insertName name names).Pairwise (· < ·) := by
  induction names with
  | nil => simp [insertName]
  | cons first rest ih =>
    have hfirst := List.pairwise_cons.1 h
    unfold insertName
    split
    · rename_i hlt
      refine List.pairwise_cons.2 ⟨fun other hother => ?_, h⟩
      rcases List.mem_cons.1 hother with rfl | hrest
      · exact hlt
      · exact String.lt_trans hlt (hfirst.1 other hrest)
    · split
      · rename_i hlt
        refine List.pairwise_cons.2 ⟨fun other hother => ?_, ih hfirst.2⟩
        rcases mem_insertName.1 hother with rfl | hrest
        · exact hlt
        · exact hfirst.1 other hrest
      · exact h

namespace NameSet

instance : Inhabited NameSet := ⟨{}⟩

/-- The set with one more name. -/
def insert (set : NameSet) (name : String) : NameSet :=
  ⟨insertName name set.names, pairwise_insertName name set.sorted⟩

/-- The set of the listed names. -/
def ofList (names : List String) : NameSet := names.foldl insert {}

/-- Tests membership. -/
def contains (set : NameSet) (name : String) : Bool := set.names.contains name

/-- The number of names. -/
def size (set : NameSet) : Nat := set.names.length

/-- The least name that is also in another set. -/
def firstCommon? (set other : NameSet) : Option String := set.names.find? other.contains

end NameSet

end Chomsky
