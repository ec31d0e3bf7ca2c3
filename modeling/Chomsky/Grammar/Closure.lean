import Chomsky.Grammar.Basic

/-!
# Closure of a symbol property

A property passes from the right side of a rule to its left side when all symbols
of the right side have it. The closure of a property is found with a stack of
symbols that gained it: only rules that mention a popped symbol are looked at.
Rules with an empty right side mention no symbol and are never looked at.

Every rule looked at can push its left side once, so the rules whose left side is
still missing together with the stack bound the number of steps.
-/

namespace Chomsky

/-- The symbols known to have the property, and those among them that are yet to be followed. -/
structure ClosureState where
  known : SymbolSet
  stack : List Symbol

namespace ClosureState

/-- Gives the property to the left side of a rule if its right side has it. -/
def examine (state : ClosureState) (rule : Rule) : ClosureState :=
  if !state.known.contains rule.lhs && rule.rhs.all state.known.contains then
    ⟨state.known.insert rule.lhs, rule.lhs :: state.stack⟩
  else state

/-- How many rules have a left side without the property. -/
def missing (rules : List Rule) (known : SymbolSet) : Nat :=
  rules.countP fun rule => !known.contains rule.lhs

/-- How many steps may still follow. -/
def weight (rules : List Rule) (state : ClosureState) : Nat :=
  missing rules state.known + state.stack.length

/-- A symbol that gains the property is missing from no rule any more. -/
theorem missing_insert_lt {rules : List Rule} {rule : Rule} (hmem : rule ∈ rules)
    {known : SymbolSet} (hnew : known.contains rule.lhs = false) :
    missing rules (known.insert rule.lhs) < missing rules known := by
  induction rules with
  | nil => cases hmem
  | cons head tail ih =>
    have hmono : missing tail (known.insert rule.lhs) ≤ missing tail known :=
      List.countP_mono_left fun r _ hr => by simp_all
    rcases List.mem_cons.1 hmem with rfl | htail
    · simp only [missing, List.countP_cons] at hmono ⊢
      simp only [SymbolSet.contains_insert, beq_self_eq_true, Bool.true_or, hnew, Bool.not_true,
        Bool.not_false, Bool.false_eq_true, ↓reduceIte] at hmono ⊢
      omega
    · have hlt := ih htail
      simp only [missing, List.countP_cons] at hlt ⊢
      split <;> split <;> simp_all
      all_goals omega

private theorem weight_examine_le {rules : List Rule} (state : ClosureState) {rule : Rule}
    (hmem : rule ∈ rules) : weight rules (state.examine rule) ≤ weight rules state := by
  unfold examine
  split
  · rename_i h
    have hnew : state.known.contains rule.lhs = false := by simp_all
    have hlt := missing_insert_lt hmem hnew
    simp only [weight, List.length_cons]
    omega
  · exact Nat.le_refl _

private theorem weight_foldl_examine_le {rules : List Rule} {examined : List Rule}
    (hsub : ∀ rule ∈ examined, rule ∈ rules) (state : ClosureState) :
    weight rules (examined.foldl examine state) ≤ weight rules state := by
  induction examined generalizing state with
  | nil => exact Nat.le_refl _
  | cons rule rest ih =>
    have hrest := ih (fun r hr => hsub r (List.mem_cons_of_mem _ hr)) (state.examine rule)
    exact Nat.le_trans hrest (weight_examine_le state (hsub rule List.mem_cons_self))

end ClosureState

/-- The rules that mention a symbol on the right. -/
def rulesUsing (rules : List Rule) (s : Symbol) : List Rule :=
  rules.filter fun rule => rule.rhs.contains s

/-- Follows the stacked symbols until none is left. -/
def followStack (rules : List Rule) (known : SymbolSet) : List Symbol → SymbolSet
  | [] => known
  | s :: stack =>
    let next := (rulesUsing rules s).foldl ClosureState.examine ⟨known, stack⟩
    followStack rules next.known next.stack
termination_by stack => ClosureState.weight rules ⟨known, stack⟩
decreasing_by
  refine Nat.lt_of_le_of_lt
    (ClosureState.weight_foldl_examine_le (fun r hr => (List.mem_filter.1 hr).1) _) ?_
  simp [ClosureState.weight]

/-- The least set that contains the given one and is closed under the rules with a
non-empty right side. -/
def rhsClosure (rules : List Rule) (property : SymbolSet) : SymbolSet :=
  followStack rules property property.toList.reverse

end Chomsky
