import Chomsky.Proofs.FreshSymbols
import Mathlib.Data.Set.Function

/-!
# Symbols by their names

A table that covers a symbol finds it by its name, and keeps both when it grows.
So a name is taken exactly if a declared symbol has it, whatever else the table
has met. The choice of a fresh name depends on nothing but the names taken.
-/

namespace Chomsky

namespace SymbolTable

variable {t u : SymbolTable} {s : Symbol} {name : String}

/-- A covered symbol has its name listed at its number. -/
theorem getElem?_names_of_covers (hs : t.Covers s) : t.names[s.index]? = some (t.nameOf s) := by
  have hlt : s.index < t.names.length := hs
  rw [nameOf, ← getElem?_names, List.getElem?_eq_getElem hlt, Option.getD_some]

/-- A covered symbol is found by its name. -/
theorem find?_nameOf (hs : t.Covers s) : t.find? (t.nameOf s) = some s := by
  rw [find?, byName_eq_some_iff.mpr (getElem?_names_of_covers hs), Option.map_some,
    Symbol.ofIndex_index]

/-- Covered symbols are told apart by their names. -/
theorem injOn_nameOf (t : SymbolTable) : Set.InjOn t.nameOf {s | t.Covers s} := by
  intro s hs s' hs' heq
  have hfind := find?_nameOf hs
  rw [heq, find?_nameOf hs'] at hfind
  exact (Option.some.inj hfind).symm

/-- As long as numbers suffice, a name is found exactly if a covered symbol has it. -/
theorem find?_eq_some_iff (hsize : t.size ≤ UInt32.size) :
    t.find? name = some s ↔ t.Covers s ∧ t.nameOf s = name := by
  constructor
  · intro hfind
    obtain ⟨i, hi, rfl⟩ := Option.map_eq_some_iff.mp hfind
    have hlisted := byName_eq_some_iff.mp hi
    have hlt : i < t.size := (List.getElem?_eq_some_iff.mp hlisted).1
    have hindex : (Symbol.ofIndex i).index = i :=
      Symbol.index_ofIndex_of_lt (Nat.lt_of_lt_of_le hlt hsize)
    have hcovers : t.Covers (Symbol.ofIndex i) := by rwa [Covers, hindex]
    refine ⟨hcovers, Option.some.inj ?_⟩
    rw [← getElem?_names_of_covers hcovers, hindex, hlisted]
  · rintro ⟨hs, rfl⟩
    exact find?_nameOf hs

/-- A covered symbol keeps its name when the table grows. -/
theorem GrowsTo.nameOf_eq (h : t.GrowsTo u) (hs : t.Covers s) : u.nameOf s = t.nameOf s := by
  obtain ⟨rest, hrest⟩ := h
  have hlt : s.index < t.names.length := hs
  have hcovers : u.Covers s := GrowsTo.covers ⟨rest, hrest⟩ hs
  refine Option.some.inj ?_
  rw [← getElem?_names_of_covers hcovers, ← getElem?_names_of_covers hs, ← hrest,
    List.getElem?_append_left hlt]

/-- What a table finds is still found when it has grown. -/
theorem GrowsTo.find?_eq (h : t.GrowsTo u) (hfind : t.find? name = some s) :
    u.find? name = some s := by
  obtain ⟨i, hi, rfl⟩ := Option.map_eq_some_iff.mp hfind
  have hlisted := byName_eq_some_iff.mp hi
  obtain ⟨rest, hrest⟩ := h
  have hlt : i < t.names.length := (List.getElem?_eq_some_iff.mp hlisted).1
  have hlisted' : u.names[i]? = some name := by
    rw [← hrest, List.getElem?_append_left hlt, hlisted]
  rw [find?, byName_eq_some_iff.mpr hlisted', Option.map_some]

/-- Looking up names only adds names. -/
theorem growsTo_internAll (t : SymbolTable) (names : List String) :
    t.GrowsTo (t.internAll names).2 := by
  induction names generalizing t with
  | nil => exact GrowsTo.refl t
  | cons name rest ih => exact (t.growsTo_intern name).trans (ih _)

/-- Names that are new join the table in the order of their first occurrence. -/
theorem names_internAll (t : SymbolTable) (names : List String) :
    (t.internAll names).2.names = t.names ++ (names.removeAll t.names).eraseDups := by
  induction names generalizing t with
  | nil => simp [internAll, List.removeAll]
  | cons name rest ih =>
    have hrest := ih (t.add name)
    show ((t.add name).internAll rest).2.names = _
    by_cases hknown : name ∈ t.names
    · rw [hrest, names_add_of_mem hknown]
      simp [List.removeAll, hknown]
    · have hfilter : rest.removeAll (t.names ++ [name]) =
          (rest.removeAll t.names).filter fun other => !other == name := by
        rw [List.removeAll, List.removeAll, List.filter_filter]
        refine List.filter_congr fun other _ => ?_
        rw [Bool.eq_iff_iff]
        simp [and_comm]
      rw [hrest, names_add_of_not_mem hknown, hfilter, List.append_assoc]
      simp [List.removeAll, hknown, List.eraseDups_cons]

end SymbolTable

namespace Grammar

variable {g h : Grammar} {t u : SymbolTable} {name suffix stem : String}

/-- A name is taken exactly if a declared symbol has it. Rules do not matter. -/
theorem isTaken_iff_of_declared (hdeclared : ∀ s, g.isDeclared s = true → t.Covers s)
    (hsize : t.size ≤ UInt32.size) :
    g.isTaken t name = true ↔ ∃ s, g.isDeclared s = true ∧ t.nameOf s = name := by
  simp only [isTaken, declared?, Option.isSome_iff_exists, Option.filter_eq_some_iff,
    SymbolTable.find?_eq_some_iff hsize]
  constructor
  · rintro ⟨s, ⟨_, hname⟩, hs⟩
    exact ⟨s, hs, hname⟩
  · rintro ⟨s, hs, hname⟩
    exact ⟨s, ⟨hdeclared s hs, hname⟩, hs⟩

/-- A name is taken exactly if a declared symbol has it. -/
theorem isTaken_iff (hcovered : g.CoveredBy t) (hsize : t.size ≤ UInt32.size) :
    g.isTaken t name = true ↔ ∃ s, g.isDeclared s = true ∧ t.nameOf s = name :=
  isTaken_iff_of_declared (fun _ hs => hcovered.declared hs) hsize

/-- More names in the table do not make a name taken. -/
theorem isTaken_grow (hcovered : g.CoveredBy t) (hgrows : t.GrowsTo u)
    (hsize : u.size ≤ UInt32.size) : g.isTaken u name = g.isTaken t name := by
  have hsize' : t.size ≤ UInt32.size := Nat.le_trans hgrows.size_le hsize
  rw [Bool.eq_iff_iff, isTaken_iff (hcovered.grow hgrows) hsize, isTaken_iff hcovered hsize']
  refine exists_congr fun s => and_congr_right fun hdeclared => ?_
  rw [hgrows.nameOf_eq (hcovered.declared hdeclared)]

/-- The least number of suffixes that makes a name free depends only on the names taken, and not
on how many names the table has. -/
theorem freshName_congr (htaken : ∀ name, g.isTaken t name = h.isTaken u name)
    (name suffix : String) : g.freshName t name suffix = h.freshName u name suffix := by
  obtain ⟨j, hj, hfree, hleast⟩ := g.freshName_eq t name suffix
  obtain ⟨k, hk, hfree', hleast'⟩ := h.freshName_eq u name suffix
  simp only [htaken] at hfree hleast
  have hsame : j = k := by
    refine Nat.le_antisymm (Nat.le_of_not_lt fun hlt => ?_) (Nat.le_of_not_lt fun hlt => ?_)
    · rw [hleast k hlt] at hfree'
      cases hfree'
    · rw [hleast' j hlt] at hfree
      cases hfree
  rw [hj, hk, hsame]

/-- The least number that makes a name free depends only on the names taken. -/
theorem freshNumber_congr (htaken : ∀ name, g.isTaken t name = h.isTaken u name)
    (stem : String) (n : Nat) : g.freshNumber t stem n = h.freshNumber u stem n := by
  obtain ⟨hle, hfree, hleast⟩ := g.freshNumber_eq t stem n
  obtain ⟨hle', hfree', hleast'⟩ := h.freshNumber_eq u stem n
  simp only [htaken] at hfree hleast
  refine Nat.le_antisymm (Nat.le_of_not_lt fun hlt => ?_) (Nat.le_of_not_lt fun hlt => ?_)
  · rw [hleast _ hle' hlt] at hfree'
    cases hfree'
  · rw [hleast' _ hle hlt] at hfree
    cases hfree

end Grammar

end Chomsky
