import Chomsky.Bnf.Parser
import Mathlib.Data.List.Basic

/-!
# Trees and what is scanned

A recognizer holds a parse of what it has scanned: the leaves of its trees, from left to
right, are the signs that were read, each with its label. Every parse is found when its
leaves are scanned. So a parse of given signs is found exactly if there is one, and there
is never more than one. Whether signs can be scanned depends on their kinds alone.
-/

namespace Chomsky.Bnf

variable {α β : Type} {category : Category}

/-! ### Leaves -/

/-- The signs at the leaves of a parse from left to right, with their labels. -/
def Tree.leaves {category : Category} : Tree α category → List (Terminal × α)
  | nextRule before last => before.leaves ++ last.leaves
  | firstRule first => first.leaves
  | rule lhs arrow right stop =>
    (.name, lhs) :: (.arrow, arrow) :: (right.leaves ++ [(.stop, stop)])
  | nextAlternative before bar last => before.leaves ++ (.bar, bar) :: last.leaves
  | firstAlternative first => first.leaves
  | nextName before last => before.leaves ++ [(.name, last)]
  | firstName first => [(.name, first)]

/-- The same parse with other labels. -/
def Tree.map (f : Terminal → α → β) {category : Category} : Tree α category → Tree β category
  | nextRule before last => .nextRule (before.map f) (last.map f)
  | firstRule first => .firstRule (first.map f)
  | rule lhs arrow right stop => .rule (f .name lhs) (f .arrow arrow) (right.map f) (f .stop stop)
  | nextAlternative before bar last => .nextAlternative (before.map f) (f .bar bar) (last.map f)
  | firstAlternative first => .firstAlternative (first.map f)
  | nextName before last => .nextName (before.map f) (f .name last)
  | firstName first => .firstName (f .name first)

/-- New labels change each leaf on its own. -/
theorem Tree.leaves_map (f : Terminal → α → β) (tree : Tree α category) :
    (tree.map f).leaves = tree.leaves.map fun leaf => (leaf.1, f leaf.1 leaf.2) := by
  induction tree <;> simp_all [leaves, map]

/-- A parse has the value of the parse that is labelled with the values of its leaves. -/
theorem Tree.value_map (leaf : Terminal → α → Value) (tree : Tree α category) :
    (tree.map leaf).value (fun _ value => value) = tree.value leaf := by
  induction tree <;> simp_all [value, map]

/-- The signs of given kinds have a parse under any labels if they have one under some. -/
theorem Tree.exists_leaves_eq {tree : Tree α category} {signs : List (Terminal × β)}
    (h : tree.leaves.map Prod.fst = signs.map Prod.fst) :
    ∃ other : Tree β category, other.leaves = signs := by
  induction tree generalizing signs with
  | nextRule before last ihbefore ihlast =>
    rw [leaves, List.map_append] at h
    obtain ⟨front, back, rfl, hfront, hback⟩ := List.map_eq_append_iff.mp h.symm
    obtain ⟨before, rfl⟩ := ihbefore hfront.symm
    obtain ⟨last, rfl⟩ := ihlast hback.symm
    exact ⟨.nextRule before last, rfl⟩
  | firstRule first ih =>
    obtain ⟨first, rfl⟩ := ih h
    exact ⟨.firstRule first, rfl⟩
  | rule lhs arrow right stop ih =>
    simp only [leaves, List.map_cons, List.map_append, List.map_nil] at h
    obtain ⟨⟨kind, lhs⟩, tail, rfl, rfl, htail⟩ := List.map_eq_cons_iff.mp h.symm
    obtain ⟨⟨kind, arrow⟩, rest, rfl, rfl, hrest⟩ := List.map_eq_cons_iff.mp htail
    obtain ⟨front, back, rfl, hfront, hback⟩ := List.map_eq_append_iff.mp hrest
    obtain ⟨⟨kind, stop⟩, rfl, rfl⟩ := List.map_eq_singleton_iff.mp hback
    obtain ⟨right, rfl⟩ := ih hfront.symm
    exact ⟨.rule lhs arrow right stop, rfl⟩
  | nextAlternative before bar last ihbefore ihlast =>
    rw [leaves, List.map_append, List.map_cons] at h
    obtain ⟨front, back, rfl, hfront, hback⟩ := List.map_eq_append_iff.mp h.symm
    obtain ⟨⟨kind, bar⟩, rest, rfl, rfl, hrest⟩ := List.map_eq_cons_iff.mp hback
    obtain ⟨before, rfl⟩ := ihbefore hfront.symm
    obtain ⟨last, rfl⟩ := ihlast hrest.symm
    exact ⟨.nextAlternative before bar last, rfl⟩
  | firstAlternative first ih =>
    obtain ⟨first, rfl⟩ := ih h
    exact ⟨.firstAlternative first, rfl⟩
  | nextName before last ih =>
    rw [leaves, List.map_append, List.map_singleton] at h
    obtain ⟨front, back, rfl, hfront, hback⟩ := List.map_eq_append_iff.mp h.symm
    obtain ⟨⟨kind, last⟩, rfl, rfl⟩ := List.map_eq_singleton_iff.mp hback
    obtain ⟨before, rfl⟩ := ih hfront.symm
    exact ⟨.nextName before last, rfl⟩
  | firstName first =>
    obtain ⟨⟨kind, first⟩, rfl, rfl⟩ := List.map_eq_singleton_iff.mp h.symm
    exact ⟨.firstName first, rfl⟩

/-! ### What a recognizer has read -/

/-- The leaves of finished alternatives and of the bar after them. -/
def finishedLeaves : Option (Tree α .alternatives × α) → List (Terminal × α)
  | none => []
  | some (before, bar) => before.leaves ++ [(.bar, bar)]

/-- What was read of the current rule. -/
def Reading.leaves : Reading α → List (Terminal × α)
  | ruleStart => []
  | leftName lhs => [(.name, lhs)]
  | alternativeStart lhs arrow finished =>
      (.name, lhs) :: (.arrow, arrow) :: finishedLeaves finished
  | alternative lhs arrow finished names =>
    (.name, lhs) :: (.arrow, arrow) :: (finishedLeaves finished ++ names.leaves)

/-- One more alternative comes after the finished ones and their bar. -/
theorem leaves_addAlternative (finished : Option (Tree α .alternatives × α))
    (names : Tree α .alternative) :
    (addAlternative finished names).leaves = finishedLeaves finished ++ names.leaves := by
  cases finished <;> simp [addAlternative, finishedLeaves, Tree.leaves]

namespace Recognizer

variable {r next : Recognizer α} {kind : Terminal} {label : α} {signs signs' : List (Terminal × α)}

/-- The leaves of finished rules. -/
def ruleLeaves : Option (Tree α .grammar) → List (Terminal × α)
  | none => []
  | some tree => tree.leaves

/-- Everything that was read. -/
def leaves (r : Recognizer α) : List (Terminal × α) := ruleLeaves r.finished ++ r.reading.leaves

/-- One more rule comes after the finished ones. -/
theorem leaves_addRule (finished : Option (Tree α .grammar)) (last : Tree α .rule) :
    (addRule finished last).leaves = ruleLeaves finished ++ last.leaves := by
  cases finished <;> simp [addRule, ruleLeaves, Tree.leaves]

/-- One more sign was read. -/
theorem leaves_scan (h : r.scan kind label = some next) :
    next.leaves = r.leaves ++ [(kind, label)] := by
  obtain ⟨finished, reading⟩ := r
  cases reading <;> cases kind <;> cases h <;>
    simp [leaves, Reading.leaves, leaves_addAlternative, leaves_addRule, finishedLeaves, ruleLeaves,
      Tree.leaves]

/-- Reads signs from left to right. -/
def scanAll (r : Recognizer α) (signs : List (Terminal × α)) : Option (Recognizer α) :=
  signs.foldlM (fun r sign => r.scan sign.1 sign.2) r

/-- The first sign is read before the others. -/
theorem scanAll_cons_eq_some_iff {sign : Terminal × α} :
    r.scanAll (sign :: signs) = some next ↔
      ∃ middle, r.scan sign.1 sign.2 = some middle ∧ middle.scanAll signs = some next := by
  rw [scanAll, List.foldlM_cons]
  exact Option.bind_eq_some_iff

/-- Signs are read one after the other. -/
theorem scanAll_append_eq_some_iff :
    r.scanAll (signs ++ signs') = some next ↔
      ∃ middle, r.scanAll signs = some middle ∧ middle.scanAll signs' = some next := by
  rw [scanAll, List.foldlM_append]
  exact Option.bind_eq_some_iff

/-- A run reads exactly its signs. -/
theorem leaves_scanAll (h : r.scanAll signs = some next) : next.leaves = r.leaves ++ signs := by
  induction signs generalizing r with
  | nil =>
    cases h
    simp
  | cons sign rest ih =>
    obtain ⟨middle, hfirst, hrest⟩ := scanAll_cons_eq_some_iff.mp h
    rw [ih hrest, leaves_scan hfirst, List.append_assoc]
    rfl

/-- A finished parse is one of everything that was read. -/
theorem leaves_tree {tree : Tree α .grammar} (h : r.tree? = some tree) :
    tree.leaves = r.leaves := by
  obtain ⟨finished, reading⟩ := r
  cases reading <;> cases h
  simp [leaves, ruleLeaves, Reading.leaves]

end Recognizer

/-! ### Every parse is found -/

section Found

variable (grammar : Option (Tree α .grammar)) (lhs arrow : α)

open Recognizer

/-- The names of an alternative are read one by one. -/
theorem scanAll_names (finished : Option (Tree α .alternatives × α)) :
    ∀ names : Tree α .alternative,
      scanAll ⟨grammar, .alternativeStart lhs arrow finished⟩ names.leaves =
        some ⟨grammar, .alternative lhs arrow finished names⟩
  | .firstName _ => rfl
  | .nextName before _ =>
    scanAll_append_eq_some_iff.mpr ⟨_, scanAll_names finished before, rfl⟩

/-- After the arrow, alternatives are read up to the last one. -/
theorem exists_scanAll_alternatives : ∀ tree : Tree α .alternatives, ∃ finished names,
    addAlternative finished names = tree ∧
      scanAll ⟨grammar, .alternativeStart lhs arrow none⟩ tree.leaves =
        some ⟨grammar, .alternative lhs arrow finished names⟩
  | .firstAlternative names => ⟨none, names, rfl, scanAll_names grammar lhs arrow none names⟩
  | .nextAlternative before bar names => by
    obtain ⟨finished, last, rfl, hbefore⟩ := exists_scanAll_alternatives before
    refine ⟨some (addAlternative finished last, bar), names, rfl, ?_⟩
    refine scanAll_append_eq_some_iff.mpr ⟨_, hbefore, scanAll_cons_eq_some_iff.mpr ?_⟩
    exact ⟨_, rfl, scanAll_names grammar lhs arrow _ names⟩

/-- At the start of a rule, a whole rule is read. -/
theorem scanAll_rule : ∀ tree : Tree α .rule,
    scanAll ⟨grammar, .ruleStart⟩ tree.leaves = some ⟨addRule grammar tree, .ruleStart⟩
  | .rule lhs arrow right stop => by
    obtain ⟨finished, names, rfl, hright⟩ := exists_scanAll_alternatives grammar lhs arrow right
    refine scanAll_cons_eq_some_iff.mpr ⟨_, rfl, scanAll_cons_eq_some_iff.mpr ⟨_, rfl, ?_⟩⟩
    exact scanAll_append_eq_some_iff.mpr ⟨_, hright, rfl⟩

/-- A parse of rules is found when its leaves are read. -/
theorem scanAll_leaves : ∀ tree : Tree α .grammar,
    scanAll {} tree.leaves = some ⟨some tree, .ruleStart⟩
  | .firstRule first => scanAll_rule none first
  | .nextRule before last =>
    scanAll_append_eq_some_iff.mpr ⟨_, scanAll_leaves before, scanAll_rule (some before) last⟩

end Found

namespace Recognizer

variable {r : Recognizer α} {tree other : Tree α .grammar} {signs signs' : List (Terminal × α)}

/-- A parse is found by reading signs exactly if they are its leaves. -/
theorem exists_scanAll_iff :
    (∃ r, scanAll {} signs = some r ∧ r.tree? = some tree) ↔ tree.leaves = signs := by
  constructor
  · rintro ⟨r, hrun, htree⟩
    exact (leaves_tree htree).trans (leaves_scanAll hrun)
  · rintro rfl
    exact ⟨_, scanAll_leaves tree, rfl⟩

/-- Signs have at most one parse. -/
theorem tree_unique (h : tree.leaves = other.leaves) : tree = other := by
  have hfound := scanAll_leaves tree
  rw [h, scanAll_leaves other] at hfound
  cases hfound
  rfl

end Recognizer

end Chomsky.Bnf
