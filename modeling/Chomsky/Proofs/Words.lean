import Chomsky.Derivation
import Mathlib.Data.Set.NAry

/-!
# Words as a least interpretation

An interpretation gives every symbol a set of words. A form is read under it by
choosing a word for each of its symbols. An interpretation fits a grammar when
each declared terminal is a word of itself and every reading of a right side
belongs to the left side. The words that the symbols derive are the least
interpretation that fits. So one transformation of grammars is compared with
another by showing that the words of each fit the other, without an induction on
derivations.
-/

namespace Chomsky

/-- The words that arise from a form by choosing a word of each symbol. -/
def formWords (words : Symbol → Set (List Symbol)) : List Symbol → Set (List Symbol)
  | [] => {[]}
  | s :: form => Set.image2 (· ++ ·) (words s) (formWords words form)

section FormWords

variable {words words' : Symbol → Set (List Symbol)} {form : List Symbol} {s : Symbol}
  {w : List Symbol}

/-- The empty form has only the empty word. -/
@[simp]
theorem formWords_nil : formWords words [] = {[]} := rfl

/-- A word of a sequence is a word of its first symbol followed by one of the others. -/
theorem mem_formWords_cons :
    w ∈ formWords words (s :: form) ↔ ∃ u ∈ words s, ∃ v ∈ formWords words form, u ++ v = w :=
  Iff.rfl

/-- The words of a single symbol are its own. -/
@[simp]
theorem formWords_singleton : formWords words [s] = words s := by
  simp [formWords]

/-- A pair of symbols is read as a word of the first and a word of the second. -/
theorem formWords_pair (s s' : Symbol) :
    formWords words [s, s'] = Set.image2 (· ++ ·) (words s) (words s') := by
  rw [formWords, formWords_singleton]

/-- Two forms side by side are read side by side. -/
theorem formWords_append (form form' : List Symbol) :
    formWords words (form ++ form') =
      Set.image2 (· ++ ·) (formWords words form) (formWords words form') := by
  induction form with
  | nil => simp
  | cons s form ih =>
    rw [List.cons_append, formWords, formWords, ih]
    exact (Set.image2_assoc List.append_assoc).symm

/-- A reading takes from an interpretation only the words of symbols that occur. -/
theorem formWords_mono (h : ∀ s ∈ form, words s ⊆ words' s) :
    formWords words form ⊆ formWords words' form := by
  induction form with
  | nil => exact subset_rfl
  | cons s form ih =>
    have hhead : words s ⊆ words' s := h s List.mem_cons_self
    have htail := ih fun s' hs' => h s' (List.mem_cons_of_mem _ hs')
    exact Set.image2_subset hhead htail

/-- The words of a sequence depend on those of its symbols. -/
theorem formWords_congr (h : ∀ s ∈ form, words s = words' s) :
    formWords words form = formWords words' form :=
  (formWords_mono fun s hs => (h s hs).subset).antisymm
    (formWords_mono fun s hs => (h s hs).superset)

/-- A form can be read exactly if each of its symbols has a word. -/
theorem formWords_nonempty_iff :
    (formWords words form).Nonempty ↔ ∀ s ∈ form, (words s).Nonempty := by
  induction form with
  | nil => simp
  | cons s form ih => rw [formWords, Set.image2_nonempty_iff, ih, List.forall_mem_cons]

/-- The empty word is read only if every symbol has the empty word. -/
theorem nil_mem_formWords_iff : [] ∈ formWords words form ↔ ∀ s ∈ form, [] ∈ words s := by
  induction form with
  | nil => simp
  | cons s form ih =>
    rw [mem_formWords_cons, List.forall_mem_cons, ← ih]
    constructor
    · rintro ⟨u, hu, v, hv, huv⟩
      obtain ⟨rfl, rfl⟩ := List.append_eq_nil_iff.mp huv
      exact ⟨hu, hv⟩
    · rintro ⟨hu, hv⟩
      exact ⟨[], hu, [], hv, rfl⟩

/-- Reading an expanded form is reading every symbol as its expansion. -/
theorem formWords_flatMap (expand : Symbol → List Symbol) (form : List Symbol) :
    formWords words (form.flatMap expand) =
      formWords (fun s => formWords words (expand s)) form := by
  induction form with
  | nil => simp
  | cons s form ih => rw [List.flatMap_cons, formWords_append, formWords, ih]

end FormWords

namespace Grammar

/-- The interpretation has each declared terminal as a word of itself, and passes every reading
of a right side on to the left side. -/
structure FitsWords (g : Grammar) (words : Symbol → Set (List Symbol)) : Prop where
  terminals : ∀ s ∈ g.terminals, [s] ∈ words s
  rules : ∀ rule ∈ g.rules, formWords words rule.rhs ⊆ words rule.lhs

variable {g : Grammar} {words : Symbol → Set (List Symbol)} {s : Symbol} {form w : List Symbol}

/-- Under an interpretation that fits, a word of terminals is a reading of itself. -/
theorem FitsWords.self_mem (h : g.FitsWords words) (hw : g.IsWord w) : w ∈ formWords words w := by
  induction w with
  | nil => rfl
  | cons s w ih =>
    have hs : [s] ∈ words s := h.terminals s (hw s List.mem_cons_self)
    have htail := ih fun s' hs' => hw s' (List.mem_cons_of_mem _ hs')
    exact mem_formWords_cons.mpr ⟨[s], hs, w, htail, rfl⟩

/-- A step backwards keeps readings, because the replaced right side is read as its left side. -/
theorem FitsWords.step (h : g.FitsWords words) {form' : List Symbol}
    (hstep : Step g.rules form form') : formWords words form' ⊆ formWords words form := by
  obtain ⟨hrule, before, after⟩ := hstep
  rw [formWords_append, formWords_append, formWords_append, formWords, Set.image2_assoc
    List.append_assoc]
  exact Set.image2_subset subset_rfl (Set.image2_subset (h.rules _ hrule) subset_rfl)

/-- What a form derives is among its readings under every interpretation that fits. -/
theorem FitsWords.mem_of_derives (h : g.FitsWords words) (hderives : Derives g.rules form w)
    (hw : g.IsWord w) : w ∈ formWords words form := by
  induction hderives using Relation.ReflTransGen.head_induction_on with
  | refl => exact h.self_mem hw
  | head hstep _ ih => exact h.step hstep ih

/-- The derived words belong to every interpretation that fits. -/
theorem FitsWords.wordsOf_subset (h : g.FitsWords words) (s : Symbol) : g.wordsOf s ⊆ words s := by
  rintro w ⟨hw, hderives⟩
  have hmem := h.mem_of_derives hderives hw
  rwa [formWords_singleton] at hmem

/-- A reading by derived words is derived from the form as a whole. -/
theorem derives_of_mem_formWords (hw : w ∈ formWords g.wordsOf form) :
    g.IsWord w ∧ Derives g.rules form w := by
  induction form generalizing w with
  | nil =>
    obtain rfl : w = [] := hw
    exact ⟨by simp [IsWord], Derives.refl []⟩
  | cons s form ih =>
    obtain ⟨u, ⟨huword, hu⟩, v, hv, rfl⟩ := mem_formWords_cons.mp hw
    obtain ⟨hvword, hv⟩ := ih hv
    refine ⟨fun x hx => ?_, hu.append hv⟩
    rcases List.mem_append.mp hx with hx | hx
    · exact huword x hx
    · exact hvword x hx

/-- The derived words fit their grammar. -/
theorem fitsWords_wordsOf (g : Grammar) : g.FitsWords g.wordsOf where
  terminals s hs := ⟨by simpa [IsWord] using hs, Derives.refl [s]⟩
  rules rule hrule w hw := by
    obtain ⟨hword, hderives⟩ := derives_of_mem_formWords hw
    exact ⟨hword, (Derives.of_rule hrule).trans hderives⟩

/-- What a symbol has as words by a single rule, or as a terminal. -/
def unfoldedWords (g : Grammar) (s : Symbol) : Set (List Symbol) :=
  {w | (s ∈ g.terminals ∧ w = [s]) ∨
    ∃ rule ∈ g.rules, rule.lhs = s ∧ w ∈ formWords g.wordsOf rule.rhs}

private theorem unfoldedWords_subset (g : Grammar) (s : Symbol) :
    g.unfoldedWords s ⊆ g.wordsOf s := by
  rintro w (⟨hs, rfl⟩ | ⟨rule, hrule, rfl, hw⟩)
  · exact g.fitsWords_wordsOf.terminals s hs
  · exact g.fitsWords_wordsOf.rules rule hrule hw

/-- The unfolded words fit as well: unfolding once more stays within derived words. -/
theorem fitsWords_unfoldedWords (g : Grammar) : g.FitsWords g.unfoldedWords where
  terminals _ hs := Or.inl ⟨hs, rfl⟩
  rules rule hrule _ hw :=
    Or.inr ⟨rule, hrule, rfl, formWords_mono (fun s _ => g.unfoldedWords_subset s) hw⟩

/-- A word of a symbol is the symbol itself, if it is a terminal, or is read from the right side
of one of its rules. -/
theorem mem_wordsOf_iff :
    w ∈ g.wordsOf s ↔ (s ∈ g.terminals ∧ w = [s]) ∨
      ∃ rule ∈ g.rules, rule.lhs = s ∧ w ∈ formWords g.wordsOf rule.rhs :=
  ⟨fun hw => g.fitsWords_unfoldedWords.wordsOf_subset s hw, fun hw => g.unfoldedWords_subset s hw⟩

end Grammar

end Chomsky
