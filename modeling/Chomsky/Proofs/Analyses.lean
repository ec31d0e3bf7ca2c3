import Chomsky.Proofs.Closure
import Chomsky.Proofs.Reachability
import Chomsky.Proofs.WellFormed

/-!
# What the analyses find

The sets of productive, nullable and reachable symbols are computed from the rules
without a derivation. In a valid grammar each of them is what the derivations say:
productive symbols are the terminals and the nonterminals that derive a word,
nullable symbols derive the empty word, and reachable symbols occur in a sentential
form. So the emptiness of the language is decided by the start symbol.
-/

namespace Chomsky.Grammar

variable {g : Grammar} {t : SymbolTable} {s : Symbol}

/-- In a well-formed grammar only declared symbols have words: a word is read from a rule, or is a
terminal by itself. -/
theorem WellFormed.declared_of_wordsOf_nonempty (hg : g.WellFormed)
    (hs : (g.wordsOf s).Nonempty) : s ∈ g.terminals ∨ s ∈ g.nonterminals := by
  obtain ⟨w, hw⟩ := hs
  rcases mem_wordsOf_iff.mp hw with ⟨hs, _⟩ | ⟨rule, hrule, rfl, _⟩
  · exact Or.inl hs
  · exact Or.inr (hg.lhs rule hrule)

/-- The productive symbols are the terminals and the nonterminals with a word. -/
theorem WellFormed.mem_productiveSymbols_iff (hg : g.WellFormed) :
    s ∈ g.productiveSymbols ↔
      s ∈ g.terminals ∨ (s ∈ g.nonterminals ∧ (g.wordsOf s).Nonempty) := by
  rw [Grammar.mem_productiveSymbols_iff]
  constructor
  · intro hword
    exact (hg.declared_of_wordsOf_nonempty hword).imp_right fun hs => ⟨hs, hword⟩
  · rintro (hs | ⟨_, hword⟩)
    · exact ⟨[s], g.fitsWords_wordsOf.terminals s hs⟩
    · exact hword

/-- Over a table that covers a valid grammar the analyses succeed, and they find what derivations
say of the symbols. -/
theorem analyses_match_derivations (hcovered : g.CoveredBy t) (hvalid : g.validate t = .ok ()) :
    (∀ s, s ∈ g.productiveSymbols ↔
      s ∈ g.terminals ∨ (s ∈ g.nonterminals ∧ (g.wordsOf s).Nonempty)) ∧
    (g.isLanguageEmpty = true ↔ g.language = ∅) ∧
    (∀ s, s ∈ g.nullableSymbols ↔ Derives g.rules [s] []) ∧
    ∃ reachable, g.reachableSymbols t.size = .ok reachable ∧
      ∀ s, s ∈ reachable ↔ s ∈ g.sententialSymbols := by
  have hg : g.WellFormed := (validate_eq_ok_iff.mp hvalid).1
  obtain ⟨reachable, hok, hmem⟩ := reachableSymbols_eq_ok hcovered
  refine ⟨fun s => hg.mem_productiveSymbols_iff, isLanguageEmpty_iff,
    fun s => mem_nullableSymbols_iff_derives, reachable, hok, fun s => ?_⟩
  rw [hmem, mem_sententialSymbols_iff]

/-- The first nonterminal vanishes through a recursive rule, the third is reached and has no word,
and the fourth has a word and is not reached. -/
def recursive : Grammar where
  start := ⟨0⟩
  nonterminals := .ofList [⟨0⟩, ⟨1⟩, ⟨2⟩, ⟨3⟩]
  terminals := .ofList [⟨4⟩, ⟨5⟩]
  rules := [⟨⟨0⟩, [⟨1⟩, ⟨0⟩]⟩, ⟨⟨0⟩, [⟨1⟩, ⟨1⟩]⟩, ⟨⟨0⟩, [⟨2⟩]⟩, ⟨⟨1⟩, [⟨4⟩]⟩, ⟨⟨1⟩, []⟩,
    ⟨⟨2⟩, [⟨2⟩, ⟨5⟩]⟩, ⟨⟨3⟩, [⟨0⟩, ⟨5⟩]⟩]

def recursiveTable : SymbolTable :=
  (SymbolTable.empty.internAll ["S", "A", "B", "C", "a", "b"]).2

/-- What is found of three of its symbols, read as facts about derivations. -/
theorem analyses_recursive_match_derivations :
    Derives recursive.rules [⟨0⟩] [] ∧ recursive.language ≠ ∅ ∧
      ⟨2⟩ ∈ recursive.sententialSymbols ∧ recursive.wordsOf ⟨2⟩ = ∅ ∧
      ⟨3⟩ ∉ recursive.sententialSymbols ∧ (recursive.wordsOf ⟨3⟩).Nonempty := by
  obtain ⟨hproductive, hempty, hnullable, reachable, hok, hreachable⟩ :=
    analyses_match_derivations (g := recursive) (t := recursiveTable) (by decide +kernel)
      (by decide +kernel)
  have hfound : (recursive.reachableSymbols recursiveTable.size).toOption.map
      (fun set => (set.contains ⟨2⟩, set.contains ⟨3⟩)) = some (true, false) := by
    decide +kernel
  rw [hok] at hfound
  obtain ⟨hsecond, hthird⟩ := Prod.mk.inj (Option.some.inj hfound)
  have hunproductive : ⟨2⟩ ∉ recursive.productiveSymbols := by decide +kernel
  rw [hproductive, not_or, not_and] at hunproductive
  have hword := (hproductive ⟨3⟩).mp (by decide +kernel)
  refine ⟨(hnullable ⟨0⟩).mp (by decide +kernel), fun hlanguage => ?_, ?_, ?_, ?_, ?_⟩
  · exact absurd (hempty.mpr hlanguage) (by decide +kernel)
  · exact (hreachable ⟨2⟩).mp hsecond
  · exact Set.not_nonempty_iff_eq_empty.mp (hunproductive.2 (by decide +kernel))
  · rw [← hreachable, SymbolSet.mem_iff, hthird]
    exact Bool.false_ne_true
  · exact (hword.resolve_left (by decide +kernel)).2

end Chomsky.Grammar
