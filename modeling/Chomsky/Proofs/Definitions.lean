import Chomsky.Grammar.Rule
import Mathlib.Data.List.Basic

/-!
# Definitions among rules

Some rules of a list are definitions: each says what a symbol stands for. Reading the
definitions in their order, each with the symbols defined before it, gives every symbol
an expansion. It is the only one that respects the definitions, provided that each of
them comes before all uses of its symbol. The definitions can then be taken out of the
list again, and the symbols expanded in what is left.
-/

namespace Chomsky

/-- The rule with the symbols of its right side expanded. -/
def Rule.expand (expand : Symbol → List Symbol) (rule : Rule) : Rule :=
  ⟨rule.lhs, rule.rhs.flatMap expand⟩

/-- No rule mentions the symbol, on the left or on the right. -/
def Absent (s : Symbol) (rules : List Rule) : Prop :=
  ∀ rule ∈ rules, s ≠ rule.lhs ∧ s ∉ rule.rhs

/-- The definition is the only rule with its left side, and it stands before every rule that uses
the defined symbol. -/
def DefinedOnce (rules : List Rule) (d : Rule) : Prop :=
  ∃ before after, rules = before ++ d :: after ∧ Absent d.lhs before ∧ d.lhs ∉ d.rhs ∧
    ∀ rule ∈ after, rule.lhs ≠ d.lhs

/-- A defined symbol is expanded to what the right side of its definition is expanded to. -/
def Respects (definitions : List Rule) (expand : Symbol → List Symbol) : Prop :=
  ∀ d ∈ definitions, expand d.lhs = d.rhs.flatMap expand

/-- By their definitions, the first symbols stand for the second. -/
def StandFor (definitions : List Rule) (symbols symbols' : List Symbol) : Prop :=
  ∀ expand, Respects definitions expand → symbols.flatMap expand = symbols'.flatMap expand

/-- Symbols are expanded by their definitions, and a symbol without one stands for itself. -/
structure Unfolds (definitions : List Rule) (expand : Symbol → List Symbol) : Prop where
  defined : Respects definitions expand
  other : ∀ s, (∀ d ∈ definitions, d.lhs ≠ s) → expand s = [s]

/-- The expansion that results from reading definitions one after the other. -/
def expandBy (definitions : List Rule) : Symbol → List Symbol :=
  definitions.foldl (fun expand d => Function.update expand d.lhs (d.rhs.flatMap expand))
    fun s => [s]

/-- Takes the definitions out of a list of rules and expands the defined symbols in the rest. -/
def undo (definitions rules : List Rule) : List Rule :=
  (rules.filter (· ∉ definitions)).map
    (Rule.expand (expandBy (rules.filter (· ∈ definitions))))

variable {definitions definitions' rules : List Rule} {d rule : Rule}
  {expand : Symbol → List Symbol}

/-- A definition is one of the rules. -/
theorem DefinedOnce.mem (h : DefinedOnce rules d) : d ∈ rules := by
  obtain ⟨before, after, rfl, _⟩ := h
  simp

/-- A later rule changes nothing, unless it has the same left side. -/
theorem DefinedOnce.concat (h : DefinedOnce rules d) (hne : rule.lhs ≠ d.lhs) :
    DefinedOnce (rules ++ [rule]) d := by
  obtain ⟨before, after, rfl, hbefore, hself, hafter⟩ := h
  refine ⟨before, after ++ [rule], by simp, hbefore, hself, fun other hother => ?_⟩
  rcases List.mem_append.mp hother with hother | hother
  · exact hafter other hother
  · rwa [List.mem_singleton.mp hother]

/-- A new symbol that does not occur in the rules is defined once by one more rule. -/
theorem definedOnce_concat (habsent : Absent d.lhs rules) (hself : d.lhs ∉ d.rhs) :
    DefinedOnce (rules ++ [d]) d :=
  ⟨rules, [], rfl, habsent, hself, by simp⟩

/-- One more definition is expanded by those before it. -/
theorem expandBy_concat (definitions : List Rule) (d : Rule) : expandBy (definitions ++ [d]) =
    Function.update (expandBy definitions) d.lhs (d.rhs.flatMap (expandBy definitions)) := by
  rw [expandBy, List.foldl_append]
  rfl

private theorem flatMap_update {s : Symbol} {symbols : List Symbol} (hs : s ∉ symbols)
    (expansion : List Symbol) :
    symbols.flatMap (Function.update expand s expansion) = symbols.flatMap expand := by
  refine List.flatMap_congr fun x hx => Function.update_of_ne ?_ ..
  rintro rfl
  exact hs hx

/-- Without definitions nothing is expanded. -/
theorem unfolds_nil : Unfolds [] expand ↔ expand = expandBy [] := by
  constructor
  · intro h
    funext s
    exact h.other s (by simp)
  · rintro rfl
    exact ⟨fun d hd => absurd hd List.not_mem_nil, fun s _ => rfl⟩

/-- A rule that is no definition is undone by expanding it. -/
theorem undo_concat (hrule : rule ∉ definitions) : undo definitions (rules ++ [rule]) =
    undo definitions rules ++
      [rule.expand (expandBy (rules.filter (· ∈ definitions)))] := by
  simp [undo, hrule]

/-! ### One more definition -/

section OneMore

variable (hmem : ∀ other, other ∈ definitions' ↔ other = d ∨ other ∈ definitions)

include hmem

/-- One more definition of a new symbol leaves exactly one expansion. -/
theorem Unfolds.define (h : Unfolds definitions expand) (habsent : Absent d.lhs definitions)
    (hself : d.lhs ∉ d.rhs) :
    Unfolds definitions' (Function.update expand d.lhs (d.rhs.flatMap expand)) where
  defined other hother := by
    rcases (hmem other).mp hother with rfl | hold
    · rw [Function.update_self, flatMap_update hself]
    · obtain ⟨hlhs, hrhs⟩ := habsent other hold
      rw [Function.update_of_ne hlhs.symm, flatMap_update hrhs, h.defined other hold]
  other s hs := by
    have hne : s ≠ d.lhs := (hs d ((hmem d).mpr (Or.inl rfl))).symm
    rw [Function.update_of_ne hne]
    exact h.other s fun other hother => hs other ((hmem other).mpr (Or.inr hother))

private theorem Unfolds.forget (h : Unfolds definitions' expand)
    (habsent : Absent d.lhs definitions) :
    Unfolds definitions (Function.update expand d.lhs [d.lhs]) where
  defined other hother := by
    obtain ⟨hlhs, hrhs⟩ := habsent other hother
    rw [Function.update_of_ne hlhs.symm, flatMap_update hrhs]
    exact h.defined other ((hmem other).mpr (Or.inr hother))
  other s hs := by
    by_cases hs' : s = d.lhs
    · rw [hs', Function.update_self]
    · rw [Function.update_of_ne hs']
      refine h.other s fun other hother => ?_
      rcases (hmem other).mp hother with rfl | hold
      · exact Ne.symm hs'
      · exact hs other hold

/-- If there is exactly one expansion, one more definition leaves exactly one. -/
theorem unfolds_define_iff {expand' : Symbol → List Symbol}
    (honly : ∀ other, Unfolds definitions other ↔ other = expand)
    (habsent : Absent d.lhs definitions) (hself : d.lhs ∉ d.rhs) :
    Unfolds definitions' expand' ↔
      expand' = Function.update expand d.lhs (d.rhs.flatMap expand) := by
  constructor
  · intro h
    -- Without the new definition, what is left is the expansion there was.
    have hold := (honly _).mp (h.forget hmem habsent)
    rw [← hold, flatMap_update hself, ← h.defined d ((hmem d).mpr (Or.inl rfl)),
      Function.update_idem, Function.update_eq_self]
  · rintro rfl
    exact ((honly expand).mpr rfl).define hmem habsent hself

variable (habsent : Absent d.lhs rules)

include habsent

private theorem mem_define_iff_of_absent (hrule : rule ∈ rules) :
    rule ∈ definitions' ↔ rule ∈ definitions := by
  refine (hmem rule).trans (or_iff_right ?_)
  rintro rfl
  exact (habsent rule hrule).1 rfl

/-- A new definition comes after those before it. -/
theorem filter_define : (rules ++ [d]).filter (· ∈ definitions') =
    rules.filter (· ∈ definitions) ++ [d] := by
  have hd : d ∈ definitions' := (hmem d).mpr (Or.inl rfl)
  have hold : rules.filter (· ∈ definitions') = rules.filter (· ∈ definitions) :=
    List.filter_congr fun rule hrule =>
      decide_eq_decide.mpr (mem_define_iff_of_absent hmem habsent hrule)
  rw [List.filter_append, hold]
  simp [hd]

/-- With one more definition at the end, the list is undone as before. -/
theorem undo_define : undo definitions' (rules ++ [d]) = undo definitions rules := by
  have hd : d ∈ definitions' := (hmem d).mpr (Or.inl rfl)
  have hold : rules.filter (· ∉ definitions') = rules.filter (· ∉ definitions) :=
    List.filter_congr fun rule hrule =>
      decide_eq_decide.mpr (not_congr (mem_define_iff_of_absent hmem habsent hrule))
  have hkept : (rules ++ [d]).filter (· ∉ definitions') = rules.filter (· ∉ definitions) := by
    rw [List.filter_append, hold]
    simp [hd]
  rw [undo, undo, hkept, filter_define hmem habsent, expandBy_concat]
  refine List.map_congr_left fun rule hrule => ?_
  have hrhs := (habsent rule (List.mem_filter.mp hrule).1).2
  rw [Rule.expand, Rule.expand, flatMap_update hrhs]

end OneMore

end Chomsky
