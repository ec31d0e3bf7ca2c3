import Chomsky.Grammar.Rule
import Std.Data.TreeSet.Lemmas

/-!
# Distinct rules

Of equal rules only the first is kept. The rules met so far are remembered by
their symbol numbers in a search tree, and the outcome is the same as that of
comparing each rule with all rules before it.
-/

namespace Chomsky

/-- The numbers of the rules met so far, and the kept rules with the latest first. -/
structure DistinctRules where
  seen : Std.TreeSet (List Nat) := ∅
  kept : List Rule := []

namespace DistinctRules

/-- Keeps a rule unless it was met before. -/
def add (d : DistinctRules) (rule : Rule) : DistinctRules :=
  if d.seen.contains rule.numbers then d
  else ⟨d.seen.insert rule.numbers, rule :: d.kept⟩

/-- The tree holds the numbers of exactly the kept rules. -/
def Faithful (d : DistinctRules) : Prop :=
  ∀ rule, d.seen.contains rule.numbers = d.kept.any (rule == ·)

/-- What was seen stays the same as what was kept. -/
theorem Faithful.add {d : DistinctRules} (h : d.Faithful) (rule : Rule) :
    (d.add rule).Faithful := by
  unfold DistinctRules.add
  split
  · exact h
  · intro other
    simp [Std.TreeSet.contains_insert, Bool.beq_eq_decide_eq, Std.LawfulEqCmp.compare_eq_iff_eq,
      h other, Rule.numbers_inj, @eq_comm _ rule other]

private theorem kept_foldl_add {d : DistinctRules} (h : d.Faithful) (rules : List Rule) :
    (rules.foldl add d).kept.reverse = List.eraseDupsBy.loop (· == ·) rules d.kept := by
  induction rules generalizing d with
  | nil => rfl
  | cons rule rest ih =>
    rw [List.foldl_cons, ih (h.add rule), List.eraseDupsBy.loop, ← h rule, add]
    cases d.seen.contains rule.numbers <;> rfl

private theorem Faithful.nodup_add {d : DistinctRules} (h : d.Faithful) (hkept : d.kept.Nodup)
    (rule : Rule) : (d.add rule).kept.Nodup := by
  unfold DistinctRules.add
  split
  · exact hkept
  · rename_i hnew
    refine List.nodup_cons.2 ⟨fun hmem => hnew ?_, hkept⟩
    rw [h rule]
    exact List.any_eq_true.2 ⟨rule, hmem, beq_self_eq_true rule⟩

private theorem Faithful.nodup_foldl_add {d : DistinctRules} (h : d.Faithful) (hkept : d.kept.Nodup)
    (rules : List Rule) : (rules.foldl DistinctRules.add d).kept.Nodup := by
  induction rules generalizing d with
  | nil => exact hkept
  | cons rule rest ih => exact ih (h.add rule) (h.nodup_add hkept rule)

end DistinctRules

/-- The rules in the order of their first occurrences, each listed once. -/
def distinctRules (rules : List Rule) : List Rule :=
  (rules.foldl DistinctRules.add {}).kept.reverse

/-- Of equal rules the first one is kept. -/
@[simp]
theorem distinctRules_eq_eraseDups (rules : List Rule) : distinctRules rules = rules.eraseDups :=
  DistinctRules.kept_foldl_add (fun _ => rfl) rules

/-- No rule is left twice. -/
theorem nodup_distinctRules (rules : List Rule) : (distinctRules rules).Nodup := by
  have hempty : DistinctRules.Faithful {} := fun _ => rfl
  have hkept := hempty.nodup_foldl_add List.nodup_nil rules
  exact List.pairwise_reverse.2 (hkept.imp Ne.symm)

end Chomsky
