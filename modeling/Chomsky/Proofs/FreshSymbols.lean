import Chomsky.Grammar.Covered
import Chomsky.Grammar.Fresh
import Mathlib.Data.List.Nodup

/-!
# Fresh symbols

A table only grows, and what it covers stays covered. The search for a name that
no declared symbol has cannot fail: the names tried are all different, a taken
name is known to the table, and more names are tried than the table knows. The
symbol of such a name is not declared, provided that the table stays within the
numbers of symbols.
-/

namespace Chomsky

namespace SymbolTable

/-- The second table has met the names of the first and perhaps more. -/
def GrowsTo (t t' : SymbolTable) : Prop := t.names <+: t'.names

variable {t t' t'' : SymbolTable}

/-- A table grows to itself. -/
theorem GrowsTo.refl (t : SymbolTable) : t.GrowsTo t := List.prefix_refl _

/-- Growth is transitive. -/
theorem GrowsTo.trans (h : t.GrowsTo t') (h' : t'.GrowsTo t'') : t.GrowsTo t'' :=
  List.IsPrefix.trans h h'

private theorem growsTo_add (t : SymbolTable) (name : String) : t.GrowsTo (t.add name) :=
  t.names_prefix_add name

/-- Looking up a name only adds names. -/
theorem growsTo_intern (t : SymbolTable) (name : String) : t.GrowsTo (t.intern name).2 :=
  t.growsTo_add name

/-- A table does not shrink when it grows. -/
theorem GrowsTo.size_le (h : t.GrowsTo t') : t.size ≤ t'.size := h.length_le

/-- Covered symbols stay covered. -/
theorem GrowsTo.covers (h : t.GrowsTo t') {s : Symbol} (hs : t.Covers s) : t'.Covers s :=
  Nat.lt_of_lt_of_le hs h.size_le

/-- The symbol of a name is one that the table hands out, even if its number had to be reduced. -/
theorem covers_intern (t : SymbolTable) (name : String) :
    (t.intern name).2.Covers (t.intern name).1 := by
  have hlt := t.numberOf_lt_size_add name
  have hle : (Symbol.ofIndex (t.numberOf name)).index ≤ t.numberOf name := by
    rw [Symbol.index_ofIndex]
    exact Nat.mod_le _ _
  exact Nat.lt_of_le_of_lt hle hlt

end SymbolTable

/-- A covered rule stays covered. -/
theorem Rule.CoveredBy.grow {rule : Rule} {t t' : SymbolTable} (h : rule.CoveredBy t)
    (hgrows : t.GrowsTo t') : rule.CoveredBy t' :=
  ⟨hgrows.covers h.1, fun s hs => hgrows.covers (h.2 s hs)⟩

/-- A covered grammar stays covered. -/
theorem Grammar.CoveredBy.grow {g : Grammar} {t t' : SymbolTable} (h : g.CoveredBy t)
    (hgrows : t.GrowsTo t') : g.CoveredBy t' where
  start := hgrows.covers h.start
  nonterminals s hs := hgrows.covers (h.nonterminals s hs)
  terminals s hs := hgrows.covers (h.terminals s hs)
  rules rule hrule := (h.rules rule hrule).grow hgrows

/-- A declared symbol is covered. -/
theorem Grammar.CoveredBy.declared {g : Grammar} {t : SymbolTable} (h : g.CoveredBy t)
    {s : Symbol} (hs : g.isDeclared s = true) : t.Covers s := by
  rcases (Bool.or_eq_true ..).mp hs with hs | hs
  · exact h.terminals s hs
  · exact h.nonterminals s hs

private theorem Grammar.coveredBy_iff {g : Grammar} {t : SymbolTable} :
    g.CoveredBy t ↔ t.Covers g.start ∧ (∀ s ∈ g.nonterminals.toList, t.Covers s) ∧
      (∀ s ∈ g.terminals.toList, t.Covers s) ∧
      ∀ rule ∈ g.rules, t.Covers rule.lhs ∧ ∀ s ∈ rule.rhs, t.Covers s := by
  simp only [SymbolSet.mem_toList]
  constructor
  · intro h
    exact ⟨h.start, h.nonterminals, h.terminals, h.rules⟩
  · rintro ⟨hstart, hnonterminals, hterminals, hrules⟩
    exact ⟨hstart, hnonterminals, hterminals, hrules⟩

instance (g : Grammar) (t : SymbolTable) : Decidable (g.CoveredBy t) :=
  decidable_of_iff' _ Grammar.coveredBy_iff

/-! ### The search for a free name -/

/-- The name with a number of suffixes. -/
def withSuffixes (suffix : String) (name : String) : Nat → String
  | 0 => name
  | k + 1 => withSuffixes suffix (name ++ suffix) k

variable {isTaken : String → Bool} {suffix stem name : String} {names : List String}

/-- Every suffix adds its length. -/
theorem length_withSuffixes (suffix name : String) (k : Nat) :
    (withSuffixes suffix name k).length = name.length + k * suffix.length := by
  induction k generalizing name with
  | zero => simp [withSuffixes]
  | succ k ih =>
    rw [withSuffixes, ih, String.length_append, Nat.succ_mul]
    omega

/-- Names with different numbers of suffixes are different. -/
theorem withSuffixes_injective (hsuffix : suffix ≠ "") (name : String) :
    Function.Injective (withSuffixes suffix name) := by
  intro j k hjk
  have hpos : 0 < suffix.length :=
    Nat.pos_of_ne_zero fun h => hsuffix (String.length_eq_zero_iff.mp h)
  have hlength := congrArg String.length hjk
  rw [length_withSuffixes, length_withSuffixes] at hlength
  exact Nat.eq_of_mul_eq_mul_right hpos (by omega)

/-- A suffix that is used is never empty. -/
theorem usableSuffix_ne_empty (suffix : String) : usableSuffix suffix ≠ "" := by
  unfold usableSuffix
  split
  · decide
  · rename_i h
    exact fun heq => h (by rw [heq]; rfl)

/-- Different numbers give different names. -/
theorem numberedName_injective (stem : String) : Function.Injective (numberedName stem) := by
  intro m n hmn
  have hdecimal : Text.decimal m = Text.decimal n := (String.append_right_inj stem).mp hmn
  have hdigits : Nat.toDigits 10 m = Nat.toDigits 10 n := by
    simpa [Text.decimal] using congrArg String.toList hdecimal
  rw [← Nat.ofDigitChars_ten_toDigits (n := m), hdigits, Nat.ofDigitChars_ten_toDigits]

/-- Of more candidates than there are names, one is not taken. -/
theorem exists_free_candidate (htaken : ∀ name, isTaken name = true → name ∈ names)
    {candidate : Nat → String} (hinjective : Function.Injective candidate) :
    ∃ k ≤ names.length, isTaken (candidate k) = false := by
  by_contra hnone
  have hall : ∀ k ≤ names.length, isTaken (candidate k) = true := by
    intro k hk
    cases hfree : isTaken (candidate k) with
    | true => rfl
    | false => exact absurd ⟨k, hk, hfree⟩ hnone
  have hnodup : ((List.range (names.length + 1)).map candidate).Nodup :=
    List.nodup_range.map hinjective
  have hsubset : (List.range (names.length + 1)).map candidate ⊆ names := by
    intro name hname
    obtain ⟨k, hk, rfl⟩ := List.mem_map.mp hname
    exact htaken _ (hall k (by have := List.mem_range.mp hk; omega))
  have hle := hnodup.length_le_of_subset hsubset
  rw [List.length_map, List.length_range] at hle
  omega

/-- Suffixes are appended just until the name is free. -/
theorem extendUntilFree_eq {tries : Nat}
    (hfree : ∃ k ≤ tries, isTaken (withSuffixes suffix name k) = false) :
    ∃ k, extendUntilFree isTaken suffix tries name = withSuffixes suffix name k ∧
      isTaken (withSuffixes suffix name k) = false ∧
      ∀ j < k, isTaken (withSuffixes suffix name j) = true := by
  induction tries generalizing name with
  | zero =>
    obtain ⟨k, hk, hfree⟩ := hfree
    obtain rfl : k = 0 := by omega
    exact ⟨0, rfl, hfree, by simp⟩
  | succ tries ih =>
    by_cases hname : isTaken name = true
    · have hfree' : ∃ k ≤ tries, isTaken (withSuffixes suffix (name ++ suffix) k) = false := by
        obtain ⟨k, hk, hfree⟩ := hfree
        cases k with
        | zero => exact absurd hname (by simpa [withSuffixes] using hfree)
        | succ k => exact ⟨k, by omega, hfree⟩
      obtain ⟨k, heq, hfree, hleast⟩ := ih hfree'
      refine ⟨k + 1, by rw [extendUntilFree, if_pos hname, heq]; rfl, hfree, fun j hj => ?_⟩
      cases j with
      | zero => exact hname
      | succ j => exact hleast j (by omega)
    · refine ⟨0, ?_, by simpa [withSuffixes] using hname, by simp⟩
      rw [extendUntilFree, if_neg hname]
      rfl

/-- A number is raised just until the numbered name is free. -/
theorem raiseUntilFree_eq {tries n : Nat}
    (hfree : ∃ k ≤ tries, isTaken (numberedName stem (n + k)) = false) :
    n ≤ raiseUntilFree isTaken stem tries n ∧
      isTaken (numberedName stem (raiseUntilFree isTaken stem tries n)) = false ∧
      ∀ m, n ≤ m → m < raiseUntilFree isTaken stem tries n →
        isTaken (numberedName stem m) = true := by
  induction tries generalizing n with
  | zero =>
    obtain ⟨k, hk, hfree⟩ := hfree
    obtain rfl : k = 0 := by omega
    refine ⟨Nat.le_refl n, hfree, fun m hm hlt => ?_⟩
    have hlt : m < n := hlt
    omega
  | succ tries ih =>
    by_cases hname : isTaken (numberedName stem n) = true
    · have hfree' : ∃ k ≤ tries, isTaken (numberedName stem (n + 1 + k)) = false := by
        obtain ⟨k, hk, hfree⟩ := hfree
        cases k with
        | zero => exact absurd hname (by simpa using hfree)
        | succ k => exact ⟨k, by omega, by rwa [show n + 1 + k = n + (k + 1) by omega]⟩
      obtain ⟨hle, hfree, hleast⟩ := ih hfree'
      rw [raiseUntilFree, if_pos hname]
      refine ⟨by omega, hfree, fun m hm hlt => ?_⟩
      by_cases heq : m = n
      · rwa [heq]
      · exact hleast m (by omega) hlt
    · rw [raiseUntilFree, if_neg hname]
      exact ⟨Nat.le_refl n, by simpa using hname, fun m hm hlt => by omega⟩

namespace Grammar

variable {g : Grammar} {t : SymbolTable}

/-- A taken name is known to the table. -/
theorem mem_names_of_isTaken (h : g.isTaken t name = true) : name ∈ t.names := by
  by_contra hnot
  have hnone : t.find? name = none := by
    rw [SymbolTable.find?, SymbolTable.byName_eq_none_iff.mpr hnot, Option.map_none]
  rw [isTaken, declared?, hnone] at h
  cases h

/-- The name found is free, and has no more suffixes than needed. -/
theorem freshName_eq (g : Grammar) (t : SymbolTable) (name suffix : String) :
    ∃ k, g.freshName t name suffix = withSuffixes (usableSuffix suffix) name k ∧
      g.isTaken t (withSuffixes (usableSuffix suffix) name k) = false ∧
      ∀ j < k, g.isTaken t (withSuffixes (usableSuffix suffix) name j) = true :=
  extendUntilFree_eq <| exists_free_candidate (fun _ h => mem_names_of_isTaken h)
    (withSuffixes_injective (usableSuffix_ne_empty suffix) name)

private theorem isTaken_freshName (g : Grammar) (t : SymbolTable) (name suffix : String) :
    g.isTaken t (g.freshName t name suffix) = false := by
  obtain ⟨k, heq, hfree, _⟩ := g.freshName_eq t name suffix
  rwa [heq]

/-- The number found gives a free name, and is not raised more than needed. -/
theorem freshNumber_eq (g : Grammar) (t : SymbolTable) (stem : String) (n : Nat) :
    n ≤ g.freshNumber t stem n ∧ g.isTaken t (numberedName stem (g.freshNumber t stem n)) = false ∧
      ∀ m, n ≤ m → m < g.freshNumber t stem n → g.isTaken t (numberedName stem m) = true :=
  raiseUntilFree_eq <| exists_free_candidate (fun _ h => mem_names_of_isTaken h)
    fun j k hjk => by have := numberedName_injective stem hjk; omega

/-- The symbol of a free name is not declared. A name that the table knows belongs to an
undeclared symbol, and a new name gets a number that no declared symbol has. -/
theorem not_isDeclared_intern (hcovered : g.CoveredBy t) (hfree : g.isTaken t name = false)
    (hsize : (t.intern name).2.size ≤ UInt32.size) : g.isDeclared (t.intern name).1 = false := by
  by_cases hknown : name ∈ t.names
  · have hfind : t.find? name = some (t.intern name).1 := SymbolTable.find?_of_mem hknown
    rw [isTaken, declared?, hfind] at hfree
    cases hdeclared : g.isDeclared (t.intern name).1 with
    | false => rfl
    | true => simp [Option.filter, hdeclared] at hfree
  · have hnumber : t.numberOf name = t.size := SymbolTable.numberOf_of_not_mem hknown
    have hlt : t.numberOf name < UInt32.size :=
      Nat.lt_of_lt_of_le (t.numberOf_lt_size_add name) hsize
    have hindex : (t.intern name).1.index = t.size := by
      rw [SymbolTable.intern, Symbol.index_ofIndex_of_lt hlt, hnumber]
    refine Bool.eq_false_iff.mpr fun hdeclared => ?_
    have hcovers : (t.intern name).1.index < t.size := hcovered.declared hdeclared
    omega

/-- A fresh symbol is not declared. -/
theorem not_isDeclared_freshSymbol (hcovered : g.CoveredBy t)
    (hsize : (g.freshSymbol t name suffix).2.size ≤ UInt32.size) :
    g.isDeclared (g.freshSymbol t name suffix).1 = false :=
  not_isDeclared_intern hcovered (g.isTaken_freshName t name suffix) hsize

end Grammar

end Chomsky
