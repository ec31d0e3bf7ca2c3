import Chomsky.NormalForm.EpsilonFree
import Chomsky.Proofs.Useful
import Mathlib.Data.List.Induction

/-!
# Elimination of epsilon rules keeps the language

The variants of a right side are the ways to leave out nullable symbols. A grammar
expanded by variants gives every symbol its former words except the empty one. A
new start symbol brings the empty word back if it was in the language. After the
elimination only the start symbol may have an epsilon rule, and if it has one it
stands on no right side.
-/

namespace Chomsky

/-! ### Leaving out nullable symbols -/

/-- The second form is the first with some nullable symbols left out. -/
inductive Omits (nullable : SymbolSet) : List Symbol → List Symbol → Prop where
  | nil : Omits nullable [] []
  | keep {s : Symbol} {form rest : List Symbol} (h : Omits nullable form rest) :
      Omits nullable (s :: form) (s :: rest)
  | drop {s : Symbol} {form rest : List Symbol} (hs : s ∈ nullable) (h : Omits nullable form rest) :
      Omits nullable (s :: form) rest

namespace Omits

variable {nullable : SymbolSet} {form rest : List Symbol}

/-- What is left has no other symbols. -/
theorem subset (h : Omits nullable form rest) : rest ⊆ form := by
  induction h with
  | nil => exact List.Subset.refl _
  | keep _ ih => exact List.cons_subset_cons _ ih
  | drop _ _ ih => exact List.subset_cons_of_subset _ ih

/-- The last symbol is kept or left out. -/
theorem concat_iff {s : Symbol} :
    Omits nullable (form ++ [s]) rest ↔
      (∃ rest', rest = rest' ++ [s] ∧ Omits nullable form rest') ∨
        (s ∈ nullable ∧ Omits nullable form rest) := by
  constructor
  · intro h
    induction form generalizing rest with
    | nil =>
      cases h with
      | keep h => cases h; exact Or.inl ⟨[], rfl, nil⟩
      | drop hs h => exact Or.inr ⟨hs, h⟩
    | cons first form ih =>
      cases h with
      | keep h =>
        rcases ih h with ⟨rest', rfl, hrest⟩ | ⟨hs, hrest⟩
        · exact Or.inl ⟨first :: rest', rfl, hrest.keep⟩
        · exact Or.inr ⟨hs, hrest.keep⟩
      | drop hfirst h =>
        rcases ih h with ⟨rest', rfl, hrest⟩ | ⟨hs, hrest⟩
        · exact Or.inl ⟨rest', rfl, hrest.drop hfirst⟩
        · exact Or.inr ⟨hs, hrest.drop hfirst⟩
  · rintro (⟨rest', rfl, h⟩ | ⟨hs, h⟩)
    · induction h with
      | nil => exact nil.keep
      | keep _ ih => exact ih.keep
      | drop hdrop _ ih => exact ih.drop hdrop
    · induction h with
      | nil => exact nil.drop hs
      | keep _ ih => exact ih.keep
      | drop hdrop _ ih => exact ih.drop hdrop

/-- Readings of what is left are readings of the whole, if nullable symbols have the empty
word. -/
theorem formWords_subset {words : Symbol → Set (List Symbol)} (h : Omits nullable form rest)
    (hnullable : ∀ s ∈ nullable, [] ∈ words s) : formWords words rest ⊆ formWords words form := by
  induction h with
  | nil => exact subset_rfl
  | keep _ ih => exact Set.image2_subset subset_rfl ih
  | drop hs _ ih =>
    intro w hw
    exact mem_formWords_cons.mpr ⟨[], hnullable _ hs, w, ih hw, rfl⟩

/-- A reading leaves out the symbols that it reads as the empty word. -/
theorem exists_of_mem_formWords {words words' : Symbol → Set (List Symbol)} {w : List Symbol}
    (hnullable : ∀ s, [] ∈ words s → s ∈ nullable)
    (hwords : ∀ s, ∀ u ∈ words s, u ≠ [] → u ∈ words' s) (hw : w ∈ formWords words form) :
    ∃ rest, Omits nullable form rest ∧ w ∈ formWords words' rest := by
  induction form generalizing w with
  | nil => exact ⟨[], nil, hw⟩
  | cons s form ih =>
    obtain ⟨u, hu, v, hv, rfl⟩ := mem_formWords_cons.mp hw
    obtain ⟨rest, hrest, hv⟩ := ih hv
    by_cases hempty : u = []
    · subst hempty
      exact ⟨rest, hrest.drop (hnullable s hu), hv⟩
    · exact ⟨s :: rest, hrest.keep, mem_formWords_cons.mpr ⟨u, hwords s u hu hempty, v, hv, rfl⟩⟩

end Omits

section Variants

variable {nullable : SymbolSet} {form rest : List Symbol}

/-- One more symbol is appended to every entry, and a nullable one may be left out as well. -/
theorem omissions_concat (nullable : SymbolSet) (form : List Symbol) (s : Symbol) :
    omissions nullable (form ++ [s]) =
      if nullable.contains s then
        (omissions nullable form).map (· ++ [s]) ++ omissions nullable form
      else (omissions nullable form).map (· ++ [s]) := by
  rw [omissions, List.foldl_append]
  rfl

private theorem mem_omissions_iff : rest ∈ omissions nullable form ↔ Omits nullable form rest := by
  induction form using List.reverseRecOn generalizing rest with
  | nil =>
    constructor
    · intro h
      obtain rfl := List.mem_singleton.mp h
      exact Omits.nil
    · rintro ⟨⟩
      exact List.mem_singleton_self _
  | append_singleton form s ih =>
    have hkept : rest ∈ (omissions nullable form).map (· ++ [s]) ↔
        ∃ rest', rest = rest' ++ [s] ∧ Omits nullable form rest' := by
      simp only [List.mem_map, ih, eq_comm, and_comm]
    rw [omissions_concat, Omits.concat_iff]
    by_cases hs : nullable.contains s = true
    · have hmem : s ∈ nullable := hs
      rw [if_pos hs, List.mem_append, hkept, ih]
      simp [hmem]
    · have hmem : s ∉ nullable := hs
      rw [if_neg hs, hkept]
      simp [hmem]

/-- The variants are what is left after omissions, unless nothing is left. -/
theorem mem_variants_iff :
    rest ∈ variants nullable form ↔ Omits nullable form rest ∧ rest ≠ [] := by
  rw [variants, List.mem_filter, mem_omissions_iff]
  simp

end Variants

namespace Grammar

variable {g h : Grammar} {t : SymbolTable} {naming : Naming} {s : Symbol} {rule : Rule}

/-! ### The expanded grammar -/

/-- A rule of the expansion is a non-empty variant of a rule. -/
theorem mem_expandedRules_iff {nullable : SymbolSet} :
    rule ∈ g.expandedRules nullable ↔
      ∃ rhs, ⟨rule.lhs, rhs⟩ ∈ g.rules ∧ Omits nullable rhs rule.rhs ∧ rule.rhs ≠ [] := by
  rw [expandedRules, distinctRules_eq_eraseDups, List.mem_eraseDups]
  simp only [List.mem_flatMap, List.mem_filter, List.mem_map, mem_variants_iff]
  constructor
  · rintro ⟨⟨lhs, rhs⟩, ⟨hrule, _⟩, rest, ⟨homits, hne⟩, rfl⟩
    exact ⟨rhs, hrule, homits, hne⟩
  · obtain ⟨lhs, rest⟩ := rule
    rintro ⟨rhs, hrule, homits, hne⟩
    refine ⟨⟨lhs, rhs⟩, ⟨hrule, ?_⟩, rest, ⟨homits, hne⟩, rfl⟩
    cases homits with
    | nil => exact absurd rfl hne
    | keep => rfl
    | drop => rfl

/-- The rules are the variants of the rules. -/
theorem mem_rules_expandNullable :
    rule ∈ g.expandNullable.rules ↔ ∃ rhs, ⟨rule.lhs, rhs⟩ ∈ g.rules ∧
      Omits g.nullableSymbols rhs rule.rhs ∧ rule.rhs ≠ [] :=
  mem_expandedRules_iff

/-- The expansion takes the empty word from every symbol and keeps all other words. -/
theorem wordsOf_expandNullable (g : Grammar) (s : Symbol) :
    g.expandNullable.wordsOf s = g.wordsOf s \ {[]} := by
  have hsound : g.expandNullable.FitsWords fun s => g.wordsOf s \ {[]} := by
    refine ⟨fun s hs => ⟨g.fitsWords_wordsOf.terminals s hs, by simp⟩, fun rule hrule w hw => ?_⟩
    obtain ⟨rhs, hrule, homits, hne⟩ := mem_rules_expandNullable.mp hrule
    constructor
    · have hw' := formWords_mono (fun s _ => Set.sdiff_subset) hw
      have hrhs := homits.formWords_subset (fun s hs => mem_nullableSymbols_iff.mp hs) hw'
      exact g.fitsWords_wordsOf.rules _ hrule hrhs
    · rintro rfl
      obtain ⟨x, hx⟩ := List.exists_mem_of_ne_nil _ hne
      exact (nil_mem_formWords_iff.mp hw x hx).2 rfl
  have hcomplete : g.FitsWords fun s =>
      {w | w ∈ g.wordsOf s ∧ (w ≠ [] → w ∈ g.expandNullable.wordsOf s)} := by
    refine ⟨fun s hs => ⟨g.fitsWords_wordsOf.terminals s hs, fun _ => ?_⟩,
      fun rule hrule w hw => ⟨?_, fun hne => ?_⟩⟩
    · exact g.expandNullable.fitsWords_wordsOf.terminals s hs
    · exact g.fitsWords_wordsOf.rules rule hrule (formWords_mono (fun s _ u hu => hu.1) hw)
    · obtain ⟨rest, homits, hrest⟩ := Omits.exists_of_mem_formWords
        (fun s hs => mem_nullableSymbols_iff.mpr hs.1) (fun s u hu hne => hu.2 hne) hw
      have hrestne : rest ≠ [] := by
        rintro rfl
        exact hne hrest
      have hexpanded : ⟨rule.lhs, rest⟩ ∈ g.expandNullable.rules :=
        mem_rules_expandNullable.mpr ⟨rule.rhs, hrule, homits, hrestne⟩
      exact g.expandNullable.fitsWords_wordsOf.rules _ hexpanded hrest
  refine (hsound.wordsOf_subset s).antisymm ?_
  rintro w ⟨hw, hne⟩
  exact (hcomplete.wordsOf_subset s hw).2 hne

/-- The expanded grammar is well-formed. -/
theorem WellFormed.expandNullable (hg : g.WellFormed) : g.expandNullable.WellFormed where
  disjoint := hg.disjoint
  start := hg.start
  lhs rule hrule := by
    obtain ⟨rhs, hrule, _⟩ := mem_rules_expandNullable.mp hrule
    exact hg.lhs ⟨rule.lhs, rhs⟩ hrule
  rhs rule hrule s hs := by
    obtain ⟨rhs, hrule, homits, _⟩ := mem_rules_expandNullable.mp hrule
    exact hg.rhs _ hrule s (homits.subset hs)

/-! ### A new start symbol -/

/-- Two rules are added for a new start symbol. -/
theorem mem_rules_prependStart :
    rule ∈ (g.prependStart s).rules ↔ rule ∈ g.rules ∨ rule = ⟨s, [g.start]⟩ ∨ rule = ⟨s, []⟩ := by
  simp [prependStart, addRule, setStart, addNonterminal]

/-- The new start symbol is a nonterminal. -/
theorem mem_nonterminals_prependStart {x : Symbol} :
    x ∈ (g.prependStart s).nonterminals ↔ x = s ∨ x ∈ g.nonterminals := by
  simp [prependStart, addRule, setStart, addNonterminal, SymbolSet.mem_iff]

/-- A new start symbol has the words of the old one and the empty word. Every other symbol keeps
its words. -/
theorem wordsOf_prependStart (hg : g.WellFormed) (hs : g.isDeclared s = false) (x : Symbol) :
    (g.prependStart s).wordsOf x = if x = s then insert [] g.language else g.wordsOf x := by
  have hstart : g.start ≠ s := by
    rintro rfl
    exact (isDeclared_eq_false_iff.mp hs).2 hg.start
  have hold : g.FitsWords (g.prependStart s).wordsOf :=
    ⟨(g.prependStart s).fitsWords_wordsOf.terminals, fun rule hrule =>
      (g.prependStart s).fitsWords_wordsOf.rules rule (mem_rules_prependStart.mpr (Or.inl hrule))⟩
  have hnew : (g.prependStart s).FitsWords fun x =>
      if x = s then insert [] g.language else g.wordsOf x := by
    refine ⟨fun x hx => ?_, fun rule hrule => ?_⟩
    · have hne : x ≠ s := by
        rintro rfl
        exact (isDeclared_eq_false_iff.mp hs).1 hx
      rw [if_neg hne]
      exact g.fitsWords_wordsOf.terminals x hx
    · rcases mem_rules_prependStart.mp hrule with hrule | rfl | rfl
      · obtain ⟨hlhs, hrhs⟩ := hg.not_mem_rule hs hrule
        have hwords : ∀ x ∈ rule.rhs,
            (if x = s then insert [] g.language else g.wordsOf x) = g.wordsOf x :=
          fun x hx => if_neg (ne_of_mem_of_not_mem hx hrhs)
        rw [if_neg hlhs, formWords_congr hwords]
        exact g.fitsWords_wordsOf.rules rule hrule
      · rw [formWords_singleton, if_pos rfl, if_neg hstart]
        exact Set.subset_insert _ _
      · rw [if_pos rfl]
        exact Set.singleton_subset_iff.mpr (Set.mem_insert _ _)
  have hfits := (g.prependStart s).fitsWords_wordsOf
  refine (hnew.wordsOf_subset x).antisymm ?_
  by_cases hx : x = s
  · subst hx
    rw [if_pos rfl]
    refine Set.insert_subset ?_ ((hold.wordsOf_subset g.start).trans ?_)
    · exact hfits.rules ⟨x, []⟩ (mem_rules_prependStart.mpr (Or.inr (Or.inr rfl))) rfl
    · have hunit := hfits.rules ⟨x, [g.start]⟩ (mem_rules_prependStart.mpr (Or.inr (Or.inl rfl)))
      rwa [formWords_singleton] at hunit
  · rw [if_neg hx]
    exact hold.wordsOf_subset x

private theorem language_prependStart (hg : g.WellFormed) (hs : g.isDeclared s = false) :
    (g.prependStart s).language = insert [] g.language := by
  have hwords := wordsOf_prependStart hg hs s
  rwa [if_pos rfl] at hwords

/-- With a fresh start symbol the grammar stays well-formed. -/
theorem WellFormed.prependStart (hg : g.WellFormed) (hs : g.isDeclared s = false) :
    (g.prependStart s).WellFormed where
  disjoint x hx hmem := by
    rcases mem_nonterminals_prependStart.mp hmem with rfl | hmem
    · exact (isDeclared_eq_false_iff.mp hs).1 hx
    · exact hg.disjoint x hx hmem
  start := mem_nonterminals_prependStart.mpr (Or.inl rfl)
  lhs rule hrule := by
    rw [mem_nonterminals_prependStart]
    rcases mem_rules_prependStart.mp hrule with hrule | rfl | rfl
    · exact Or.inr (hg.lhs rule hrule)
    · exact Or.inl rfl
    · exact Or.inl rfl
  rhs rule hrule x hx := by
    rw [mem_nonterminals_prependStart]
    rcases mem_rules_prependStart.mp hrule with hrule | rfl | rfl
    · exact (hg.rhs rule hrule x hx).imp_right Or.inr
    · obtain rfl := List.mem_singleton.mp hx
      exact Or.inr (Or.inr hg.start)
    · cases hx

/-! ### The whole elimination -/

/-- Only the start symbol may have an epsilon rule, and if it has one it stands on no right
side. -/
def OnlyStartEmpty (g : Grammar) : Prop :=
  ∀ rule ∈ g.rules, rule.rhs = [] → rule.lhs = g.start ∧ ∀ rule' ∈ g.rules, g.start ∉ rule'.rhs

/-- Under that condition only an epsilon rule gives the empty word. -/
theorem OnlyStartEmpty.nil_mem_wordsOf_iff (hg : g.OnlyStartEmpty) :
    [] ∈ g.wordsOf s ↔ ⟨s, []⟩ ∈ g.rules := by
  constructor
  · intro hs
    have hfits : g.FitsWords fun s => {w | w = [] → ⟨s, []⟩ ∈ g.rules} := by
      refine ⟨fun s _ hnil => absurd hnil (List.cons_ne_nil s []), ?_⟩
      rintro ⟨lhs, rhs⟩ hrule w hw rfl
      cases rhs with
      | nil => exact hrule
      | cons x rest =>
        -- The first symbol would be a start symbol with an epsilon rule on a right side.
        have hempty : ⟨x, []⟩ ∈ g.rules := nil_mem_formWords_iff.mp hw x List.mem_cons_self rfl
        obtain ⟨hx, hnot⟩ := hg _ hempty rfl
        exact absurd (hx ▸ List.mem_cons_self) (hnot _ hrule)
    exact hfits.wordsOf_subset s hs rfl
  · exact fun hrule => g.fitsWords_wordsOf.rules _ hrule rfl

/-- The removal of unproductive symbols adds no empty rule. -/
theorem OnlyStartEmpty.removeUnproductive (hg : g.OnlyStartEmpty) :
    g.removeUnproductive.OnlyStartEmpty := by
  intro rule hrule hrhs
  obtain ⟨hlhs, hnot⟩ := hg rule (mem_rules_removeUnproductive.mp hrule).1 hrhs
  exact ⟨hlhs, fun rule' hrule' => hnot rule' (mem_rules_removeUnproductive.mp hrule').1⟩

/-- The reachable part has no other empty rules. -/
theorem OnlyStartEmpty.reachablePart (hg : g.OnlyStartEmpty) (hpart : g.ReachablePart h) :
    h.OnlyStartEmpty := by
  intro rule hrule hrhs
  rw [hpart.start]
  obtain ⟨hlhs, hnot⟩ := hg rule ((hpart.rules rule).mp hrule).1 hrhs
  exact ⟨hlhs, fun rule' hrule' => hnot rule' ((hpart.rules rule').mp hrule').1⟩

/-- If the start symbol derives the empty word, a new one is put in front. -/
theorem expandEpsilon_of_nullable (hstart : g.start ∈ g.nullableSymbols) (t : SymbolTable)
    (naming : Naming) :
    g.expandEpsilon t naming =
      (g.expandNullable.prependStart (g.newStart t naming).1, (g.newStart t naming).2) :=
  if_pos hstart

/-- If the start symbol does not derive the empty word, it stays. -/
theorem expandEpsilon_of_not_nullable (hstart : g.start ∉ g.nullableSymbols) (t : SymbolTable)
    (naming : Naming) : g.expandEpsilon t naming = (g.expandNullable, t) :=
  if_neg hstart

private theorem growsTo_expandEpsilon (g : Grammar) (t : SymbolTable) (naming : Naming) :
    t.GrowsTo (g.expandEpsilon t naming).2 := by
  by_cases hstart : g.start ∈ g.nullableSymbols
  · rw [expandEpsilon_of_nullable hstart]
    exact t.growsTo_intern _
  · rw [expandEpsilon_of_not_nullable hstart]
    exact SymbolTable.GrowsTo.refl t

/-- The elimination of empty rules only adds names. -/
theorem growsTo_eliminateEpsilon (g : Grammar) (t : SymbolTable) (naming : Naming) :
    t.GrowsTo (g.eliminateEpsilon t naming).2 :=
  g.growsTo_expandEpsilon t naming

/-- Elimination of epsilon rules leaves the terminals alone. -/
theorem mem_terminals_eliminateEpsilon :
    s ∈ (g.eliminateEpsilon t naming).1.terminals ↔ s ∈ g.terminals := by
  by_cases hstart : g.start ∈ g.nullableSymbols
  · rw [eliminateEpsilon, expandEpsilon_of_nullable hstart]
    rfl
  · rw [eliminateEpsilon, expandEpsilon_of_not_nullable hstart]
    rfl

/-- The new start symbol is not declared in the grammar that it is made for. -/
theorem not_isDeclared_newStart (hcovered : g.CoveredBy t)
    (hsize : (g.newStart t naming).2.size ≤ UInt32.size) :
    g.isDeclared (g.newStart t naming).1 = false :=
  not_isDeclared_freshSymbol hcovered hsize

/-- The elimination of empty rules leaves a well-formed grammar. -/
theorem WellFormed.expandEpsilon (hg : g.WellFormed) (hcovered : g.CoveredBy t)
    (hsize : (g.expandEpsilon t naming).2.size ≤ UInt32.size) :
    (g.expandEpsilon t naming).1.WellFormed := by
  by_cases hstart : g.start ∈ g.nullableSymbols
  · rw [expandEpsilon_of_nullable hstart] at hsize ⊢
    have hnew := not_isDeclared_newStart hcovered hsize
    exact hg.expandNullable.prependStart hnew
  · rw [expandEpsilon_of_not_nullable hstart]
    exact hg.expandNullable

/-- Exact coverage does not need the bound on numbers: a new start symbol is always covered. -/
theorem CoveredBy.expandEpsilon (hcovered : g.CoveredBy t) :
    (g.expandEpsilon t naming).1.CoveredBy (g.expandEpsilon t naming).2 := by
  have hexpanded : g.expandNullable.CoveredBy t :=
    { start := hcovered.start
      nonterminals := hcovered.nonterminals
      terminals := hcovered.terminals
      rules := fun rule hrule => by
        obtain ⟨rhs, hrule, homits, _⟩ := mem_rules_expandNullable.mp hrule
        have hold := hcovered.rules _ hrule
        exact ⟨hold.1, fun s hs => hold.2 s (homits.subset hs)⟩ }
  by_cases hstart : g.start ∈ g.nullableSymbols
  · rw [expandEpsilon_of_nullable hstart]
    have hgrown := hexpanded.grow (t.growsTo_intern (g.freshName t (g.newStartName t naming)
      naming.startSuffix))
    have hnew : (g.newStart t naming).2.Covers (g.newStart t naming).1 := t.covers_intern _
    refine ⟨hnew, fun s hs => ?_, hgrown.terminals, fun rule hrule => ?_⟩
    · rcases mem_nonterminals_prependStart.mp hs with rfl | hs
      · exact hnew
      · exact hgrown.nonterminals s hs
    · rcases mem_rules_prependStart.mp hrule with hrule | rfl | rfl
      · exact hgrown.rules rule hrule
      · refine ⟨hnew, fun s hs => ?_⟩
        obtain rfl := List.mem_singleton.mp hs
        exact hgrown.start
      · exact ⟨hnew, fun s hs => by cases hs⟩
  · rw [expandEpsilon_of_not_nullable hstart]
    exact hexpanded

/-- The elimination of empty rules returns a table that covers the grammar. -/
theorem CoveredBy.eliminateEpsilon (hcovered : g.CoveredBy t) (naming : Naming) :
    (g.eliminateEpsilon t naming).1.CoveredBy (g.eliminateEpsilon t naming).2 :=
  hcovered.expandEpsilon.removeUnproductive

/-- The elimination of empty rules keeps the language. -/
theorem language_expandEpsilon (hg : g.WellFormed) (hcovered : g.CoveredBy t)
    (hsize : (g.expandEpsilon t naming).2.size ≤ UInt32.size) :
    (g.expandEpsilon t naming).1.language = g.language := by
  have hexpanded : g.expandNullable.language = g.language \ {[]} := g.wordsOf_expandNullable g.start
  have hempty : g.start ∈ g.nullableSymbols ↔ [] ∈ g.language := mem_nullableSymbols_iff
  by_cases hstart : g.start ∈ g.nullableSymbols
  · rw [expandEpsilon_of_nullable hstart] at hsize ⊢
    have hnew := not_isDeclared_newStart hcovered hsize
    rw [language_prependStart hg.expandNullable hnew, hexpanded, Set.insert_sdiff_singleton]
    exact Set.insert_eq_of_mem (hempty.mp hstart)
  · rw [expandEpsilon_of_not_nullable hstart, hexpanded]
    exact Set.sdiff_singleton_eq_self fun hnil => hstart (hempty.mpr hnil)

/-- Afterwards only the start symbol has an empty rule, and it is on no right side. -/
theorem onlyStartEmpty_expandEpsilon (hg : g.WellFormed) (hcovered : g.CoveredBy t)
    (hsize : (g.expandEpsilon t naming).2.size ≤ UInt32.size) :
    (g.expandEpsilon t naming).1.OnlyStartEmpty := by
  have hexpanded : ∀ rule ∈ g.expandNullable.rules, rule.rhs ≠ [] := by
    intro rule hrule
    obtain ⟨_, _, _, hne⟩ := mem_rules_expandNullable.mp hrule
    exact hne
  by_cases hstart : g.start ∈ g.nullableSymbols
  · rw [expandEpsilon_of_nullable hstart] at hsize ⊢
    have hnew := not_isDeclared_newStart hcovered hsize
    have hstartne : g.start ≠ (g.newStart t naming).1 := by
      intro heq
      rw [← heq] at hnew
      exact (isDeclared_eq_false_iff.mp hnew).2 hg.start
    have hnot : ∀ rule ∈ (g.expandNullable.prependStart (g.newStart t naming).1).rules,
        (g.newStart t naming).1 ∉ rule.rhs := by
      intro rule hrule
      rcases mem_rules_prependStart.mp hrule with hrule | rfl | rfl
      · exact (hg.expandNullable.not_mem_rule hnew hrule).2
      · exact fun hmem => hstartne (List.mem_singleton.mp hmem).symm
      · exact List.not_mem_nil
    intro rule hrule hrhs
    refine ⟨?_, hnot⟩
    rcases mem_rules_prependStart.mp hrule with hrule | rfl | rfl
    · exact absurd hrhs (hexpanded rule hrule)
    · rfl
    · rfl
  · rw [expandEpsilon_of_not_nullable hstart]
    exact fun rule hrule hrhs => absurd hrhs (hexpanded rule hrule)

end Grammar

end Chomsky
