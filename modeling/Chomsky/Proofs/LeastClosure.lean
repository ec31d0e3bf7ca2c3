import Chomsky.Grammar.Occurrences
import Chomsky.Proofs.Closure
import Chomsky.Proofs.ComputedStages
import Mathlib.Order.Bounds.Defs

/-!
# The search for the closure of a property

The closure of a property is the least set that contains it and is closed under the
rules with a non-empty right side. It is found by a search that pops one symbol at a
time and examines the rules at the places where this symbol occurs on the right.

The search ends because no symbol is popped twice. At any time the known symbols are
those popped so far together with those on the stack, each of them once: a symbol is
stacked only when it becomes known. So the symbols popped by a whole run are exactly
the members of the closure.
-/

namespace Chomsky

/-! ### Closed sets -/

/-- The set has the left side of every rule whose right side is not empty and lies in the set. -/
def ClosedUnder (rules : List Rule) (set : Set Symbol) : Prop :=
  ∀ rule ∈ rules, rule.rhs ≠ [] → (∀ s ∈ rule.rhs, s ∈ set) → rule.lhs ∈ set

variable {rules rules' : List Rule} {initial initial' : Symbol → Prop} {s : Symbol}

private theorem closedUnder_supported : ClosedUnder rules {s | Supported rules initial s} :=
  fun _ hrule hrhs hsupported => Supported.rule hrule hrhs hsupported

/-- Supported symbols belong to every closed set that has the initial ones. -/
theorem Supported.mem_of_closedUnder (hs : Supported rules initial s) {set : Set Symbol}
    (hinitial : ∀ s, initial s → s ∈ set) (hclosed : ClosedUnder rules set) : s ∈ set := by
  induction hs with
  | initial hs => exact hinitial _ hs
  | rule hrule hrhs _ ih => exact hclosed _ hrule hrhs ih

/-- More rules and more initial symbols support more. -/
theorem Supported.mono (hs : Supported rules initial s) (hrules : ∀ rule ∈ rules, rule ∈ rules')
    (hinitial : ∀ s, initial s → initial' s) : Supported rules' initial' s := by
  have hclosed : ClosedUnder rules {s | Supported rules' initial' s} :=
    fun rule hrule hrhs hsupported => Supported.rule (hrules rule hrule) hrhs hsupported
  exact hs.mem_of_closedUnder (fun s hs => Supported.initial (hinitial s hs)) hclosed

/-- The closure is the least closed set that has the given symbols. -/
theorem isLeast_rhsClosure (rules : List Rule) (property : SymbolSet) :
    IsLeast {set : Set Symbol | (∀ s ∈ property, s ∈ set) ∧ ClosedUnder rules set}
      {s | s ∈ rhsClosure rules property} := by
  have hclosure : {s | s ∈ rhsClosure rules property} = {s | Supported rules (· ∈ property) s} :=
    Set.ext (mem_rhsClosure_iff rules property)
  rw [hclosure]
  refine ⟨⟨fun s hs => Supported.initial hs, closedUnder_supported⟩, ?_⟩
  rintro set ⟨hinitial, hclosed⟩ s hs
  exact Supported.mem_of_closedUnder hs hinitial hclosed

/-! ### Runs of the search -/

/-- The rules at the listed positions are those that satisfy the test. -/
theorem map_getElem?_positionsWhere (rules : List Rule) (p : Rule → Bool) :
    (positionsWhere rules p).map (rules[·]?) = (rules.filter p).map some := by
  have hplace : ∀ entry ∈ rules.zipIdx.filter fun entry => p entry.1,
      rules[entry.2]? = some entry.1 := by
    rintro ⟨rule, i⟩ hentry
    exact List.mk_mem_zipIdx_iff_getElem?.1 (List.mem_of_mem_filter hentry)
  have hrules : rules.filter p = (rules.zipIdx.filter fun entry => p entry.1).map Prod.fst := by
    rw [← Function.comp_def p Prod.fst, ← List.filter_map, List.zipIdx_map_fst]
  calc (positionsWhere rules p).map (rules[·]?)
    _ = (rules.zipIdx.filter fun entry => p entry.1).map fun entry => rules[entry.2]? := by
      rw [positionsWhere, List.map_map]
      rfl
    _ = (rules.filter p).map some := by
      rw [List.map_congr_left hplace, hrules, List.map_map]
      rfl

namespace ClosureState

/-- Popping the listed symbols one after the other leads from one state to another. With each of
them, the rules are examined in which it occurs on the right. -/
inductive Pops (rules : List Rule) : ClosureState → List Symbol → ClosureState → Prop where
  | nil (state : ClosureState) : Pops rules state [] state
  | cons {known : SymbolSet} {s : Symbol} {stack popped : List Symbol} {examined : List Rule}
      {last : ClosureState}
      (hexamined : (occurrencesOf rules s).rhs.map (rules[·]?) = examined.map some)
      (hrest : Pops rules (examined.foldl examine ⟨known, stack⟩) popped last) :
      Pops rules ⟨known, s :: stack⟩ (s :: popped) last

/-- The known symbols are those popped and those stacked, each of them once. -/
structure Accounts (popped : List Symbol) (state : ClosureState) : Prop where
  nodup : (popped ++ state.stack).Nodup
  mem_iff : ∀ s, s ∈ popped ++ state.stack ↔ s ∈ state.known

variable {popped : List Symbol} {state : ClosureState} {rule : Rule} {known : SymbolSet}
  {stack : List Symbol}

/-- A symbol that is stacked was not known before, so it was neither stacked nor popped. -/
theorem Accounts.examine (h : Accounts popped state) (rule : Rule) :
    Accounts popped (state.examine rule) := by
  by_cases hfires : rule.lhs ∉ state.known ∧ ∀ s ∈ rule.rhs, s ∈ state.known
  · rw [examine_of_fires hfires.1 hfires.2]
    have hnew : rule.lhs ∉ popped ++ state.stack := fun hmem => hfires.1 ((h.mem_iff _).mp hmem)
    refine ⟨List.nodup_middle.mpr (List.nodup_cons.mpr ⟨hnew, h.nodup⟩), fun s => ?_⟩
    rw [List.perm_middle.mem_iff, List.mem_cons, h.mem_iff, SymbolSet.mem_iff, SymbolSet.mem_iff,
      SymbolSet.contains_insert, Bool.or_eq_true, beq_iff_eq]
  · rwa [examine_of_not_fires hfires]

/-- The account of known and waiting symbols is kept by examined rules. -/
theorem Accounts.foldl_examine (h : Accounts popped state) (examined : List Rule) :
    Accounts popped (examined.foldl ClosureState.examine state) := by
  induction examined generalizing state with
  | nil => exact h
  | cons rule rest ih => exact ih (h.examine rule)

/-- A popped symbol leaves the stack for the list of popped ones. -/
theorem Accounts.pop (h : Accounts popped ⟨known, s :: stack⟩) :
    Accounts (popped ++ [s]) ⟨known, stack⟩ := by
  have hsame : popped ++ [s] ++ stack = popped ++ s :: stack := List.append_cons ..|>.symm
  exact ⟨hsame ▸ h.nodup, hsame ▸ h.mem_iff⟩

/-- Following the stack is a run that ends with an empty stack. -/
theorem Accounts.exists_pops (h : Accounts popped ⟨known, stack⟩) (rules : List Rule) :
    ∃ more, Pops rules ⟨known, stack⟩ more ⟨followStack rules known stack, []⟩ ∧
      Accounts (popped ++ more) ⟨followStack rules known stack, []⟩ := by
  fun_induction followStack rules known stack generalizing popped with
  | case1 known => exact ⟨[], Pops.nil _, by rwa [List.append_nil]⟩
  | case2 known s stack next =>
    rename_i ih
    have hnext := h.pop.foldl_examine (rulesUsing rules s)
    have hexamined : (occurrencesOf rules s).rhs.map (rules[·]?) = (rulesUsing rules s).map some :=
      map_getElem?_positionsWhere rules fun rule => rule.rhs.contains s
    obtain ⟨more, hpops, haccounts⟩ := ih hnext
    refine ⟨s :: more, Pops.cons hexamined hpops, ?_⟩
    rwa [List.append_cons]

end ClosureState

open ClosureState

/-- The search pops each member of the closure once and then ends. -/
theorem exists_pops_rhsClosure (rules : List Rule) (property : SymbolSet) :
    ∃ popped, Pops rules ⟨property, property.toList.reverse⟩ popped
        ⟨rhsClosure rules property, []⟩ ∧
      popped.Nodup ∧ ∀ s, s ∈ popped ↔ s ∈ rhsClosure rules property := by
  have hstart : Accounts [] ⟨property, property.toList.reverse⟩ :=
    ⟨List.nodup_reverse.mpr property.ascending_toList.nodup,
      fun s => List.mem_reverse.trans SymbolSet.mem_toList⟩
  obtain ⟨popped, hpops, haccounts⟩ := hstart.exists_pops rules
  have hall : [] ++ popped ++ ([] : List Symbol) = popped := by simp
  exact ⟨popped, hpops, hall ▸ haccounts.nodup, hall ▸ haccounts.mem_iff⟩

/-- The search for a closure ends after it has popped each member of the result once. The result is
the least set that has the given symbols and is closed under the rules with a non-empty right side.
So it depends on neither the order nor the repetition of rules, and grows with the given set. -/
theorem rhsClosure_least_fixpoint (rules : List Rule) (property : SymbolSet) :
    (∃ popped, Pops rules ⟨property, property.toList.reverse⟩ popped
        ⟨rhsClosure rules property, []⟩ ∧
      popped.Nodup ∧ ∀ s, s ∈ popped ↔ s ∈ rhsClosure rules property) ∧
    IsLeast {set : Set Symbol | (∀ s ∈ property, s ∈ set) ∧ ClosedUnder rules set}
      {s | s ∈ rhsClosure rules property} ∧
    (∀ rules', (∀ rule, rule ∈ rules' ↔ rule ∈ rules) →
      ∀ s, s ∈ rhsClosure rules' property ↔ s ∈ rhsClosure rules property) ∧
    ∀ property', (∀ s ∈ property, s ∈ property') →
      ∀ s ∈ rhsClosure rules property, s ∈ rhsClosure rules property' := by
  refine ⟨exists_pops_rhsClosure rules property, isLeast_rhsClosure rules property, ?_, ?_⟩
  · intro rules' hrules s
    rw [mem_rhsClosure_iff, mem_rhsClosure_iff]
    exact ⟨fun hs => hs.mono (fun rule => (hrules rule).mp) fun _ => id,
      fun hs => hs.mono (fun rule => (hrules rule).mpr) fun _ => id⟩
  · intro property' hsubset s hs
    rw [mem_rhsClosure_iff] at hs ⊢
    exact hs.mono (fun _ => id) hsubset

end Chomsky
