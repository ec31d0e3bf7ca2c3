import Chomsky.Grammar.Basic
import Mathlib.Logic.Relation

/-!
# Derivations and languages

One step of a derivation replaces one symbol of a sentential form by the right
side of one of its rules. A derivation is any number of steps. The words of a
symbol are the sequences of declared terminals that it derives, and the language
of a grammar consists of the words of its start symbol.
-/

namespace Chomsky

/-- Replaces one symbol by the right side of one of its rules. -/
inductive Step (rules : List Rule) : List Symbol → List Symbol → Prop where
  | apply {rule : Rule} (hrule : rule ∈ rules) (before after : List Symbol) :
      Step rules (before ++ rule.lhs :: after) (before ++ rule.rhs ++ after)

/-- Replaces symbols in any number of steps. -/
def Derives (rules : List Rule) : List Symbol → List Symbol → Prop :=
  Relation.ReflTransGen (Step rules)

namespace Derives

variable {rules : List Rule} {u v w x : List Symbol}

/-- Every sequence is derived from itself. -/
theorem refl (u : List Symbol) : Derives rules u u := Relation.ReflTransGen.refl

/-- Derivations follow one another. -/
theorem trans (h₁ : Derives rules u v) (h₂ : Derives rules v w) : Derives rules u w :=
  Relation.ReflTransGen.trans h₁ h₂

/-- The left side of a rule derives its right side. -/
theorem of_rule {rule : Rule} (hrule : rule ∈ rules) : Derives rules [rule.lhs] rule.rhs := by
  have hstep := Step.apply hrule [] []
  rw [List.nil_append, List.nil_append, List.append_nil] at hstep
  exact Relation.ReflTransGen.single hstep

/-- A derivation goes on inside any context. -/
theorem context (h : Derives rules u v) (before after : List Symbol) :
    Derives rules (before ++ u ++ after) (before ++ v ++ after) := by
  induction h with
  | refl => exact refl _
  | tail _ hstep ih =>
    refine ih.trans (Relation.ReflTransGen.single ?_)
    obtain ⟨hrule, p, q⟩ := hstep
    have hwide := Step.apply hrule (before ++ p) (q ++ after)
    simpa [List.append_assoc] using hwide

/-- Derivations of two sequences put side by side. -/
theorem append (h₁ : Derives rules u v) (h₂ : Derives rules w x) :
    Derives rules (u ++ w) (v ++ x) := by
  have hleft := h₁.context [] w
  have hright := h₂.context v []
  rw [List.nil_append, List.nil_append] at hleft
  rw [List.append_nil, List.append_nil] at hright
  exact hleft.trans hright

end Derives

namespace Grammar

/-- A sequence of declared terminals. -/
def IsWord (g : Grammar) (w : List Symbol) : Prop := ∀ s ∈ w, s ∈ g.terminals

/-- The words that a symbol derives. -/
def wordsOf (g : Grammar) (s : Symbol) : Set (List Symbol) :=
  {w | g.IsWord w ∧ Derives g.rules [s] w}

/-- The words that the start symbol derives. -/
def language (g : Grammar) : Set (List Symbol) := g.wordsOf g.start

/-- The symbols that occur in a sentential form derived from the start symbol. -/
def sententialSymbols (g : Grammar) : Set Symbol :=
  {s | ∃ form, Derives g.rules [g.start] form ∧ s ∈ form}

end Grammar

end Chomsky
