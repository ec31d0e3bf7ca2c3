import Chomsky.Proofs.Names
import Chomsky.Proofs.Stages

/-!
# Rules sorted by name

The order of rules by name is total and transitive. Rules over a table that covers
them are equal if their names are, so sorting brings equal rules together, and
leaving out repetitions lists each rule once. A set of covered rules can be listed
in this way in one order only.
-/

namespace Chomsky

/-- Leaving out repetitions keeps the order of what is left. -/
theorem dropRepeats_sublist {α : Type} [DecidableEq α] (items : List α) :
    (dropRepeats items).Sublist items := by
  fun_induction dropRepeats items with
  | case1 => exact List.Sublist.refl _
  | case2 a => exact List.Sublist.refl _
  | case3 a rest ih => exact ih.cons a
  | case4 a b rest _ ih => exact ih.cons_cons a

/-- In a sorted list equal items stand together, so none is left twice. -/
theorem nodup_dropRepeats {α : Type} [DecidableEq α] {le : α → α → Prop} {items : List α}
    (hantisymm : ∀ a ∈ items, ∀ b ∈ items, le a b → le b a → a = b)
    (hsorted : items.Pairwise le) : (dropRepeats items).Nodup := by
  fun_induction dropRepeats items with
  | case1 => exact List.nodup_nil
  | case2 a => exact List.nodup_singleton a
  | case3 a rest ih =>
    have hmem : ∀ x ∈ a :: rest, x ∈ a :: a :: rest := fun x hx => List.mem_cons_of_mem a hx
    exact ih (fun x hx y hy => hantisymm x (hmem x hx) y (hmem y hy)) hsorted.of_cons
  | case4 a b rest hne ih =>
    have hmem : ∀ x ∈ b :: rest, x ∈ a :: b :: rest := fun x hx => List.mem_cons_of_mem a hx
    have hrest := ih (fun x hx y hy => hantisymm x (hmem x hx) y (hmem y hy)) hsorted.of_cons
    refine List.nodup_cons.mpr ⟨fun ha => ?_, hrest⟩
    rcases List.mem_cons.mp (mem_dropRepeats.mp ha) with rfl | ha
    · exact hne rfl
    · -- A later copy of `a` would force `b` between two equal items.
      have hab : le a b := List.rel_of_pairwise_cons hsorted List.mem_cons_self
      have hba : le b a := List.rel_of_pairwise_cons hsorted.of_cons ha
      exact hne (hantisymm a List.mem_cons_self b (hmem b List.mem_cons_self) hab hba)

namespace Rule

variable {t u : SymbolTable} {r₁ r₂ r₃ : Rule}

/-- Rules are ordered as the lists of their names. -/
theorem leByName_iff : r₁.leByName t r₂ = true ↔ (r₁.named t).names.le (r₂.named t).names :=
  decide_eq_true_iff

private theorem leByName_trans (h : r₁.leByName t r₂ = true) (h' : r₂.leByName t r₃ = true) :
    r₁.leByName t r₃ = true :=
  leByName_iff.mpr (List.le_trans (leByName_iff.mp h) (leByName_iff.mp h'))

private theorem leByName_total (t : SymbolTable) (r₁ r₂ : Rule) :
    (r₁.leByName t r₂ || r₂.leByName t r₁) = true := by
  rw [Bool.or_eq_true, leByName_iff, leByName_iff]
  exact List.le_total _ _

private theorem names_named (t : SymbolTable) (rule : Rule) :
    (rule.named t).names = (rule.lhs :: rule.rhs).map t.nameOf := rfl

/-- Covered symbols with equal names are equal, and so are covered sequences of symbols. -/
theorem eq_of_map_nameOf_eq {xs ys : List Symbol} (hxs : ∀ s ∈ xs, t.Covers s)
    (hys : ∀ s ∈ ys, t.Covers s) (heq : xs.map t.nameOf = ys.map t.nameOf) : xs = ys := by
  induction xs generalizing ys with
  | nil => exact (List.map_eq_nil_iff.mp heq.symm).symm
  | cons x xs ih =>
    obtain ⟨y, ys, rfl, hname, hrest⟩ := List.map_eq_cons_iff.mp heq.symm
    have hhead : x = y := t.injOn_nameOf (hxs x (by simp)) (hys y (by simp)) hname.symm
    have htail : xs = ys := ih (fun s hs => hxs s (List.mem_cons_of_mem x hs))
      (fun s hs => hys s (List.mem_cons_of_mem y hs)) hrest.symm
    rw [hhead, htail]

/-- Covered rules are told apart by their names. -/
theorem leByName_antisymm (hr₁ : r₁.CoveredBy t) (hr₂ : r₂.CoveredBy t)
    (h : r₁.leByName t r₂ = true) (h' : r₂.leByName t r₁ = true) : r₁ = r₂ := by
  have hnames := List.le_antisymm (leByName_iff.mp h) (leByName_iff.mp h')
  rw [names_named, names_named] at hnames
  have hsymbols : r₁.lhs :: r₁.rhs = r₂.lhs :: r₂.rhs :=
    eq_of_map_nameOf_eq (List.forall_mem_cons.mpr hr₁) (List.forall_mem_cons.mpr hr₂) hnames
  obtain ⟨hlhs, hrhs⟩ := List.cons.inj hsymbols
  cases r₁
  cases r₂
  rw [Rule.mk.injEq]
  exact ⟨hlhs, hrhs⟩

end Rule

/-- The rules are listed in ascending order of names, each once. -/
structure ListedByName (t : SymbolTable) (rules : List Rule) : Prop where
  sorted : rules.Pairwise fun r₁ r₂ => r₁.leByName t r₂ = true
  nodup : rules.Nodup

variable {t u : SymbolTable} {rules rules' : List Rule}

private theorem pairwise_mergeSort_leByName (t : SymbolTable) (rules : List Rule) :
    (rules.mergeSort (Rule.leByName t)).Pairwise fun r₁ r₂ => r₁.leByName t r₂ = true :=
  @List.pairwise_mergeSort _ (Rule.leByName t) (fun _ _ _ h h' => Rule.leByName_trans h h')
    (Rule.leByName_total t) rules

/-- Sorted rules without repetitions are listed by name. -/
theorem listedByName_mergeSort (hnodup : rules.Nodup) :
    ListedByName t (rules.mergeSort (Rule.leByName t)) where
  sorted := pairwise_mergeSort_leByName t rules
  nodup := (List.mergeSort_perm rules _).nodup_iff.mpr hnodup

/-- Covered rules that are sorted and then freed of repetitions are listed by name. -/
theorem listedByName_dropRepeats_mergeSort (hrules : ∀ rule ∈ rules, rule.CoveredBy t) :
    ListedByName t (dropRepeats (rules.mergeSort (Rule.leByName t))) where
  sorted := (pairwise_mergeSort_leByName t rules).sublist (dropRepeats_sublist _)
  nodup := by
    have hcovered : ∀ rule ∈ rules.mergeSort (Rule.leByName t), rule.CoveredBy t :=
      fun rule hrule => hrules rule (List.mem_mergeSort.mp hrule)
    refine nodup_dropRepeats (fun a ha b hb => ?_) (pairwise_mergeSort_leByName t rules)
    exact Rule.leByName_antisymm (hcovered a ha) (hcovered b hb)

/-- The members of a list of covered rules by name determine the list. -/
theorem ListedByName.eq_of_mem_iff (hlisted : ListedByName t rules)
    (hlisted' : ListedByName t rules') (hrules : ∀ rule ∈ rules, rule.CoveredBy t)
    (hmem : ∀ rule, rule ∈ rules ↔ rule ∈ rules') : rules = rules' := by
  have hperm : rules.Perm rules' :=
    (List.perm_ext_iff_of_nodup hlisted.nodup hlisted'.nodup).mpr hmem
  refine hperm.eq_of_pairwise (fun a b ha hb => ?_) hlisted.sorted hlisted'.sorted
  exact Rule.leByName_antisymm (hrules a ha) (hrules b ((hmem b).mpr hb))

/-- More names in the table do not change the order of covered rules. -/
theorem ListedByName.grow (hlisted : ListedByName t rules) (hgrows : t.GrowsTo u)
    (hrules : ∀ rule ∈ rules, rule.CoveredBy t) : ListedByName u rules where
  nodup := hlisted.nodup
  sorted := by
    have hnamed : ∀ rule ∈ rules, rule.named u = rule.named t := by
      intro rule hrule
      obtain ⟨hlhs, hrhs⟩ := hrules rule hrule
      rw [Rule.named, Rule.named, hgrows.nameOf_eq hlhs,
        List.map_congr_left fun s hs => hgrows.nameOf_eq (hrhs s hs)]
    refine hlisted.sorted.imp_of_mem fun {r₁ r₂} h₁ h₂ hle => ?_
    rwa [Rule.leByName, hnamed r₁ h₁, hnamed r₂ h₂]

end Chomsky
