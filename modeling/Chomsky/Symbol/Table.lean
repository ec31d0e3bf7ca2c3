import Chomsky.Symbol
import Std.Data.TreeMap.Lemmas

/-!
# Symbol tables

A symbol table gives every name it has met a number of its own: 0, 1, 2, … in
the order of first meeting. It only grows, so a number keeps its name. Names are
stored by their numbers and numbers by their names, and the two directions agree.
Hence each name is listed once.
-/

namespace Chomsky

/-- The names met so far by their numbers, and the numbers by their names. -/
structure SymbolTable where
  byNumber : Array String := #[]
  byName : Std.TreeMap String Nat := ∅
  agree : ∀ (name : String) (i : Nat), byName[name]? = some i ↔ byNumber[i]? = some name := by
    simp

namespace SymbolTable

instance : Inhabited SymbolTable := ⟨{}⟩

/-- The table that has met no name. -/
def empty : SymbolTable := {}

/-- How many names the table knows. -/
def size (t : SymbolTable) : Nat := t.byNumber.size

/-- The names met so far, in the order of their numbers. -/
def names (t : SymbolTable) : List String := t.byNumber.toList

/-- The symbol of a name, if the table knows the name. -/
def find? (t : SymbolTable) (name : String) : Option Symbol :=
  t.byName[name]?.map Symbol.ofIndex

/-- The name of a symbol. A symbol that the table never handed out is written `?`. -/
def nameOf (t : SymbolTable) (s : Symbol) : String := t.byNumber[s.index]?.getD "?"

/-- All symbols of the table in the order of their numbers. -/
def symbols (t : SymbolTable) : List Symbol := (List.range t.size).map Symbol.ofIndex

/-- All names with their symbols, in the order of their numbers. -/
def entries (t : SymbolTable) : List (String × Symbol) :=
  t.names.zipIdx.map fun (name, i) => (name, Symbol.ofIndex i)

/-- The table with one more name. -/
def push (t : SymbolTable) (name : String) (hnew : t.byName[name]? = none) : SymbolTable where
  byNumber := t.byNumber.push name
  byName := t.byName.insert name t.size
  agree other i := by
    have hother := t.agree other i
    have hname := t.agree name i
    simp only [Std.TreeMap.getElem?_insert, Array.getElem?_push,
      Std.LawfulEqCmp.compare_eq_iff_eq, size]
    by_cases hi : i = t.byNumber.size <;> by_cases heq : name = other <;> simp_all
    exact fun hlast => hi hlast.symm

/-- The table after meeting a name. -/
def add (t : SymbolTable) (name : String) : SymbolTable :=
  match h : t.byName[name]? with
  | some _ => t
  | none => t.push name h

/-- The number of a name, or the next free number if the name is new. -/
def numberOf (t : SymbolTable) (name : String) : Nat := t.byName[name]?.getD t.size

/-- The symbol of a name, which joins the table if it is new. -/
def intern (t : SymbolTable) (name : String) : Symbol × SymbolTable :=
  (Symbol.ofIndex (t.numberOf name), t.add name)

/-- Interns names from left to right. -/
def internAll (t : SymbolTable) : List String → List Symbol × SymbolTable
  | [] => ([], t)
  | name :: rest =>
    let (s, t) := t.intern name
    let (ss, t) := t.internAll rest
    (s :: ss, t)

/-- There are as many names as the size says. -/
@[simp]
theorem length_names (t : SymbolTable) : t.names.length = t.size := rfl

/-- Names are listed by their numbers. -/
theorem getElem?_names (t : SymbolTable) (i : Nat) : t.names[i]? = t.byNumber[i]? := by
  simp [names]

/-- A name is found at the place where it is listed. -/
theorem byName_eq_some_iff {t : SymbolTable} {name : String} {i : Nat} :
    t.byName[name]? = some i ↔ t.names[i]? = some name := by
  rw [getElem?_names, t.agree]

/-- Names that are not listed are not found. -/
theorem byName_eq_none_iff {t : SymbolTable} {name : String} :
    t.byName[name]? = none ↔ name ∉ t.names := by
  constructor
  · intro hnone hmem
    obtain ⟨i, hi⟩ := List.mem_iff_getElem?.1 hmem
    rw [byName_eq_some_iff.2 hi] at hnone
    cases hnone
  · intro hnot
    cases h : t.byName[name]? with
    | none => rfl
    | some i => exact absurd (List.mem_of_getElem? (byName_eq_some_iff.1 h)) hnot

/-- Each name is listed once. -/
theorem nodup_names (t : SymbolTable) : t.names.Nodup := by
  refine List.pairwise_iff_getElem.2 fun i j hi hj hlt heq => ?_
  have hfirst := byName_eq_some_iff.2 (List.getElem?_eq_getElem hi)
  have hsecond := byName_eq_some_iff.2 (List.getElem?_eq_getElem hj)
  rw [heq, hsecond] at hfirst
  cases hfirst
  omega

/-- A table that has met a name stays as it is. -/
theorem add_of_mem {t : SymbolTable} {name : String} (h : name ∈ t.names) : t.add name = t := by
  unfold add
  split
  · rfl
  · rename_i hnone
    exact absurd h (byName_eq_none_iff.1 hnone)

/-- A listed name is not added again. -/
theorem names_add_of_mem {t : SymbolTable} {name : String} (h : name ∈ t.names) :
    (t.add name).names = t.names := by
  rw [add_of_mem h]

/-- A new name is added at the end. -/
theorem names_add_of_not_mem {t : SymbolTable} {name : String} (h : name ∉ t.names) :
    (t.add name).names = t.names ++ [name] := by
  unfold add
  split
  · rename_i i hsome
    exact absurd (List.mem_of_getElem? (byName_eq_some_iff.1 hsome)) h
  · exact Array.toList_push

/-- Exactly the old names and the new one are known. -/
@[simp]
theorem mem_names_add {t : SymbolTable} {name other : String} :
    other ∈ (t.add name).names ↔ other ∈ t.names ∨ other = name := by
  by_cases h : name ∈ t.names
  · rw [names_add_of_mem h]
    constructor
    · exact Or.inl
    · rintro (hother | rfl)
      · exact hother
      · exact h
  · simp [names_add_of_not_mem h]

/-- A table only grows at its end. -/
theorem names_prefix_add (t : SymbolTable) (name : String) : t.names <+: (t.add name).names := by
  by_cases h : name ∈ t.names
  · exact ⟨[], by rw [List.append_nil, names_add_of_mem h]⟩
  · exact ⟨[name], (names_add_of_not_mem h).symm⟩

/-- The number of a known name is its place in the list. -/
theorem getElem?_numberOf_of_mem {t : SymbolTable} {name : String} (h : name ∈ t.names) :
    t.names[t.numberOf name]? = some name := by
  obtain ⟨i, hi⟩ := List.mem_iff_getElem?.1 h
  rwa [numberOf, byName_eq_some_iff.2 hi]

/-- A new name gets the next number. -/
theorem numberOf_of_not_mem {t : SymbolTable} {name : String} (h : name ∉ t.names) :
    t.numberOf name = t.size := by
  rw [numberOf, byName_eq_none_iff.2 h, Option.getD_none]

/-- A name joins the table at its number. -/
theorem getElem?_names_add_numberOf (t : SymbolTable) (name : String) :
    (t.add name).names[t.numberOf name]? = some name := by
  by_cases h : name ∈ t.names
  · rw [names_add_of_mem h, getElem?_numberOf_of_mem h]
  · rw [names_add_of_not_mem h, numberOf_of_not_mem h, ← length_names, List.getElem?_concat_length]

/-- A name that was added has a number below the size. -/
theorem numberOf_lt_size_add (t : SymbolTable) (name : String) :
    t.numberOf name < (t.add name).size := by
  rw [← length_names]
  exact (List.getElem?_eq_some_iff.1 (t.getElem?_names_add_numberOf name)).1

/-- The symbol of a name has that name. -/
theorem nameOf_intern {t : SymbolTable} {name : String} (h : (t.add name).size ≤ UInt32.size) :
    (t.add name).nameOf (t.intern name).1 = name := by
  have hlt := t.numberOf_lt_size_add name
  rw [intern, nameOf, Symbol.index_ofIndex_of_lt (Nat.lt_of_lt_of_le hlt h), ← getElem?_names,
    getElem?_names_add_numberOf, Option.getD_some]

/-- A known name is found at its number. -/
theorem find?_of_mem {t : SymbolTable} {name : String} (h : name ∈ t.names) :
    t.find? name = some (Symbol.ofIndex (t.numberOf name)) := by
  obtain ⟨i, hi⟩ := List.mem_iff_getElem?.1 h
  rw [find?, numberOf, byName_eq_some_iff.2 hi, Option.map_some, Option.getD_some]

/-- Looking up an interned name finds its symbol. -/
theorem find?_intern (t : SymbolTable) (name : String) :
    (t.intern name).2.find? name = some (t.intern name).1 := by
  have hplace := byName_eq_some_iff.2 (t.getElem?_names_add_numberOf name)
  rw [intern, find?, hplace, Option.map_some]

end SymbolTable

end Chomsky
