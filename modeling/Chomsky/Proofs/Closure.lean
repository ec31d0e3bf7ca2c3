import Chomsky.Analysis.Derivable
import Chomsky.Proofs.Words

/-!
# The closure of a symbol property is least

A symbol is supported when it has a property from the outset, or is the left side
of a rule whose right side is not empty and consists of supported symbols. The
closure that follows a stack of symbols finds exactly the supported ones. A rule
that still waits for its left side has a symbol of its right side on the stack, and
this is what every step of the search keeps.

With the symbols of epsilon rules as a start, support is derivation of the empty
word. With the terminals in addition, it is derivation of some word.
-/

namespace Chomsky

/-- The least property that contains the initial one and passes from non-empty right sides to
left sides. -/
inductive Supported (rules : List Rule) (initial : Symbol → Prop) : Symbol → Prop where
  | initial {s : Symbol} (hs : initial s) : Supported rules initial s
  | rule {rule : Rule} (hrule : rule ∈ rules) (hrhs : rule.rhs ≠ [])
      (hsupported : ∀ s ∈ rule.rhs, Supported rules initial s) : Supported rules initial rule.lhs

namespace ClosureState

/-- The state has the initial symbols and only supported ones. -/
structure Sound (rules : List Rule) (initial : Symbol → Prop) (state : ClosureState) : Prop where
  contains_initial : ∀ s, initial s → s ∈ state.known
  supported : ∀ s ∈ state.known, Supported rules initial s

/-- Every rule whose right side is known has a known left side, or a stacked symbol on its right
side, or is among those yet to be examined. -/
def Awaits (rules : List Rule) (state : ClosureState) (todo : List Rule) : Prop :=
  ∀ rule ∈ rules, rule.rhs ≠ [] → (∀ s ∈ rule.rhs, s ∈ state.known) →
    rule.lhs ∈ state.known ∨ (∃ s ∈ rule.rhs, s ∈ state.stack) ∨ rule ∈ todo

variable {rules todo : List Rule} {initial : Symbol → Prop} {state : ClosureState} {rule : Rule}

/-- A rule is used when its right side is known and its left side is not. -/
theorem examine_of_fires (hlhs : rule.lhs ∉ state.known) (hrhs : ∀ s ∈ rule.rhs, s ∈ state.known) :
    state.examine rule = ⟨state.known.insert rule.lhs, rule.lhs :: state.stack⟩ := by
  have hlhs' : state.known.contains rule.lhs = false := by simpa [SymbolSet.mem_iff] using hlhs
  have hrhs' : rule.rhs.all state.known.contains = true := List.all_eq_true.mpr hrhs
  rw [examine, hlhs', hrhs']
  rfl

/-- A rule that does not fire changes nothing. -/
theorem examine_of_not_fires (h : ¬(rule.lhs ∉ state.known ∧ ∀ s ∈ rule.rhs, s ∈ state.known)) :
    state.examine rule = state := by
  rw [examine, if_neg]
  rintro hfires
  rw [Bool.and_eq_true, List.all_eq_true] at hfires
  exact h ⟨by simpa [SymbolSet.mem_iff] using hfires.1, hfires.2⟩

/-- One examined rule leaves the known symbols supported. -/
theorem Sound.examine (h : state.Sound rules initial) (hrule : rule ∈ rules)
    (hrhs : rule.rhs ≠ []) : (state.examine rule).Sound rules initial := by
  by_cases hfires : rule.lhs ∉ state.known ∧ ∀ s ∈ rule.rhs, s ∈ state.known
  · rw [examine_of_fires hfires.1 hfires.2]
    refine ⟨fun s hs => ?_, fun s hs => ?_⟩
    · have hknown := h.contains_initial s hs
      simp_all [SymbolSet.mem_iff]
    · rcases (by simpa [SymbolSet.mem_iff] using hs : s = rule.lhs ∨ s ∈ state.known) with rfl | hs
      · exact Supported.rule hrule hrhs fun s hs => h.supported s (hfires.2 s hs)
      · exact h.supported s hs
  · rwa [examine_of_not_fires hfires]

/-- After a rule has been examined it need not be examined again. -/
theorem Awaits.examine (h : state.Awaits rules (rule :: todo)) :
    (state.examine rule).Awaits rules todo := by
  intro other hother hne hrhs
  by_cases hfires : rule.lhs ∉ state.known ∧ ∀ s ∈ rule.rhs, s ∈ state.known
  · rw [examine_of_fires hfires.1 hfires.2] at hrhs ⊢
    have hknown : ∀ s, s ∈ state.known.insert rule.lhs ↔ s = rule.lhs ∨ s ∈ state.known := by
      simp [SymbolSet.mem_iff]
    by_cases hnew : rule.lhs ∈ other.rhs
    · exact Or.inr (Or.inl ⟨rule.lhs, hnew, List.mem_cons_self⟩)
    · have hold : ∀ s ∈ other.rhs, s ∈ state.known := fun s hs =>
        ((hknown s).mp (hrhs s hs)).resolve_left fun heq => hnew (heq ▸ hs)
      rcases h other hother hne hold with hlhs | ⟨s, hs, hstack⟩ | htodo
      · exact Or.inl ((hknown _).mpr (Or.inr hlhs))
      · exact Or.inr (Or.inl ⟨s, hs, List.mem_cons_of_mem _ hstack⟩)
      · rcases List.mem_cons.mp htodo with rfl | htodo
        · exact Or.inl ((hknown _).mpr (Or.inl rfl))
        · exact Or.inr (Or.inr htodo)
  · rw [examine_of_not_fires hfires] at hrhs ⊢
    rcases h other hother hne hrhs with hlhs | hstack | htodo
    · exact Or.inl hlhs
    · exact Or.inr (Or.inl hstack)
    · rcases List.mem_cons.mp htodo with rfl | htodo
      · exact Or.inl (by_contra fun hlhs => hfires ⟨hlhs, hrhs⟩)
      · exact Or.inr (Or.inr htodo)

/-- Examined rules leave the known symbols supported. -/
theorem Sound.foldl_examine (h : state.Sound rules initial)
    (htodo : ∀ rule ∈ todo, rule ∈ rules ∧ rule.rhs ≠ []) :
    (todo.foldl ClosureState.examine state).Sound rules initial := by
  induction todo generalizing state with
  | nil => exact h
  | cons rule todo ih =>
    obtain ⟨hrule, hrhs⟩ := htodo rule List.mem_cons_self
    exact ih (h.examine hrule hrhs) fun r hr => htodo r (List.mem_cons_of_mem _ hr)

/-- After all rules were examined, none is left to examine. -/
theorem Awaits.foldl_examine (h : state.Awaits rules todo) :
    (todo.foldl ClosureState.examine state).Awaits rules [] := by
  induction todo generalizing state with
  | nil => exact h
  | cons rule todo ih => exact ih h.examine

end ClosureState

open ClosureState

variable {rules : List Rule} {initial : Symbol → Prop} {known : SymbolSet} {stack : List Symbol}

/-- Following the stack keeps soundness, and no rule waits for its left side once the stack is
empty. -/
theorem mem_followStack_iff (hsound : Sound rules initial ⟨known, stack⟩)
    (hawaits : Awaits rules ⟨known, stack⟩ []) (s : Symbol) :
    s ∈ followStack rules known stack ↔ Supported rules initial s := by
  fun_induction followStack rules known stack with
  | case1 known =>
    refine ⟨hsound.supported s, fun hs => ?_⟩
    induction hs with
    | initial hs => exact hsound.contains_initial _ hs
    | rule hrule hrhs _ ih =>
      rcases hawaits _ hrule hrhs ih with hlhs | ⟨_, _, hstack⟩ | htodo
      · exact hlhs
      · cases hstack
      · cases htodo
  | case2 known popped stack next ih =>
    have husing : ∀ rule ∈ rulesUsing rules popped, rule ∈ rules ∧ rule.rhs ≠ [] := by
      intro rule hrule
      obtain ⟨hrule, hmentions⟩ := List.mem_filter.mp hrule
      refine ⟨hrule, ?_⟩
      rintro hnil
      rw [hnil] at hmentions
      cases hmentions
    have hsound' : Sound rules initial ⟨known, stack⟩ := ⟨hsound.contains_initial, hsound.supported⟩
    -- The popped symbol leaves the stack, so the rules that mention it are taken up instead.
    have hawaits' : Awaits rules ⟨known, stack⟩ (rulesUsing rules popped) := by
      intro rule hrule hne hrhs
      rcases hawaits rule hrule hne hrhs with hlhs | ⟨s, hs, hstack⟩ | htodo
      · exact Or.inl hlhs
      · rcases List.mem_cons.mp hstack with rfl | hstack
        · exact Or.inr (Or.inr (List.mem_filter.mpr ⟨hrule, by simpa using hs⟩))
        · exact Or.inr (Or.inl ⟨s, hs, hstack⟩)
      · cases htodo
    exact ih (hsound'.foldl_examine husing) hawaits'.foldl_examine

/-- The closure consists of exactly the supported symbols. -/
theorem mem_rhsClosure_iff (rules : List Rule) (property : SymbolSet) (s : Symbol) :
    s ∈ rhsClosure rules property ↔ Supported rules (· ∈ property) s := by
  refine mem_followStack_iff ⟨fun _ hs => hs, fun _ hs => Supported.initial hs⟩ ?_ s
  intro rule _ hne hrhs
  obtain ⟨s, hs⟩ := List.exists_mem_of_ne_nil _ hne
  have hlisted : s ∈ property.toList := SymbolSet.mem_toList.mpr (hrhs s hs)
  exact Or.inr (Or.inl ⟨s, hs, List.mem_reverse.mpr hlisted⟩)

namespace Grammar

variable {g : Grammar} {s : Symbol}

/-- The nulling symbols are the left sides of the empty rules. -/
theorem mem_nullingSymbols_iff : s ∈ g.nullingSymbols ↔ ⟨s, []⟩ ∈ g.rules := by
  rw [SymbolSet.mem_iff, nullingSymbols, SymbolSet.contains_ofList, List.contains_iff_mem]
  simp only [List.mem_map, List.mem_filter, Rule.isEpsilon, List.isEmpty_iff]
  constructor
  · rintro ⟨rule, ⟨hrule, hrhs⟩, rfl⟩
    rwa [← hrhs]
  · intro hrule
    exact ⟨⟨s, []⟩, ⟨hrule, rfl⟩, rfl⟩

/-- Nullable symbols are exactly those that derive the empty word. -/
theorem mem_nullableSymbols_iff : s ∈ g.nullableSymbols ↔ [] ∈ g.wordsOf s := by
  rw [nullableSymbols, mem_rhsClosure_iff]
  constructor
  · intro hs
    induction hs with
    | initial hs => exact g.fitsWords_wordsOf.rules _ (mem_nullingSymbols_iff.mp hs) rfl
    | rule hrule _ _ ih =>
      exact g.fitsWords_wordsOf.rules _ hrule (nil_mem_formWords_iff.mpr ih)
  · intro hs
    have hfits : g.FitsWords fun s => {w | w = [] → Supported g.rules (· ∈ g.nullingSymbols) s} :=
      { terminals := fun _ _ hnil => by cases hnil
        rules := by
          rintro rule hrule w hw rfl
          by_cases hrhs : rule.rhs = []
          · exact Supported.initial (mem_nullingSymbols_iff.mpr (by rwa [← hrhs]))
          · exact Supported.rule hrule hrhs fun s hs => nil_mem_formWords_iff.mp hw s hs rfl }
    exact hfits.wordsOf_subset s hs rfl

/-- The empty word is a word whatever is declared, so nullable symbols are those that derive the
empty form. -/
theorem mem_nullableSymbols_iff_derives : s ∈ g.nullableSymbols ↔ Derives g.rules [s] [] :=
  mem_nullableSymbols_iff.trans (and_iff_right fun _ hs => absurd hs List.not_mem_nil)

/-- Productive symbols are exactly those that derive some word. -/
theorem mem_productiveSymbols_iff : s ∈ g.productiveSymbols ↔ (g.wordsOf s).Nonempty := by
  have hinitial : ∀ s, s ∈ g.terminals.union g.nullingSymbols ↔
      s ∈ g.nullingSymbols ∨ s ∈ g.terminals := by
    simp [SymbolSet.mem_iff]
  rw [productiveSymbols, mem_rhsClosure_iff]
  constructor
  · intro hs
    induction hs with
    | initial hs =>
      rcases (hinitial _).mp hs with hs | hs
      · exact ⟨[], g.fitsWords_wordsOf.rules _ (mem_nullingSymbols_iff.mp hs) rfl⟩
      · exact ⟨_, g.fitsWords_wordsOf.terminals _ hs⟩
    | rule hrule _ _ ih =>
      exact (formWords_nonempty_iff.mpr ih).mono (g.fitsWords_wordsOf.rules _ hrule)
  · rintro ⟨w, hw⟩
    have hfits : g.FitsWords fun s =>
        {_w | Supported g.rules (· ∈ g.terminals.union g.nullingSymbols) s} :=
      { terminals := fun s hs => Supported.initial ((hinitial s).mpr (Or.inr hs))
        rules := by
          intro rule hrule w hw
          by_cases hrhs : rule.rhs = []
          · have hempty : ⟨rule.lhs, []⟩ ∈ g.rules := by rwa [← hrhs]
            have hnulling := mem_nullingSymbols_iff.mpr hempty
            exact Supported.initial ((hinitial _).mpr (Or.inl hnulling))
          · refine Supported.rule hrule hrhs fun s hs => ?_
            obtain ⟨_, hsupported⟩ := formWords_nonempty_iff.mp ⟨w, hw⟩ s hs
            exact hsupported }
    exact hfits.wordsOf_subset s hw

/-- The language is found empty exactly if there is no word. -/
theorem isLanguageEmpty_iff : g.isLanguageEmpty = true ↔ g.language = ∅ := by
  have hstart : g.productiveSymbols.contains g.start = true ↔ g.language.Nonempty :=
    mem_productiveSymbols_iff
  rw [isLanguageEmpty, Bool.not_eq_true', ← Bool.not_eq_true, hstart, Set.not_nonempty_iff_eq_empty]

end Grammar

end Chomsky
