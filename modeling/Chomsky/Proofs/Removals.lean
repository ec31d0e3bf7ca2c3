import Chomsky.Proofs.Useful

/-!
# Sequences of removals

Unproductive and unreachable symbols may be removed in any order and any number of
times. Each removal keeps a valid grammar valid, keeps its language and the words of
every nonterminal that stays, and undeclares exactly the nonterminals that it is
about, the start symbol apart. By induction a sequence of removals keeps the same.
-/

namespace Chomsky

/-- The two kinds of symbols that can be removed. -/
inductive Removal where
  | unproductive
  | unreachable

namespace Grammar

/-- Removes the symbols of a kind. -/
def remove (g : Grammar) (size : Nat) : Removal → Except RangeError Grammar
  | .unproductive => .ok g.removeUnproductive
  | .unreachable => g.removeUnreachable size

/-- Carries out removals one after the other. -/
def removeAll (g : Grammar) (size : Nat) : List Removal → Except RangeError Grammar
  | [] => .ok g
  | removal :: rest => do (← g.remove size removal).removeAll size rest

/-- What a removal is about: symbols without a word, and symbols that stand in no sentential
form. -/
def Dispensable (g : Grammar) : Removal → Symbol → Prop
  | .unproductive, s => g.wordsOf s = ∅
  | .unreachable, s => s ∉ g.sententialSymbols

/-- The second grammar has the start symbol and the language of the first, and some of its
nonterminals with the same words. -/
structure KeepsWords (g h : Grammar) : Prop where
  start : h.start = g.start
  language : h.language = g.language
  nonterminals : ∀ s ∈ h.nonterminals, s ∈ g.nonterminals ∧ h.wordsOf s = g.wordsOf s

/-- The second grammar is valid, keeps words, and has dropped exactly the nonterminals that the
removal is about. -/
structure RemovedFrom (g h : Grammar) (t : SymbolTable) (removal : Removal) : Prop where
  keeps : g.KeepsWords h
  valid : h.validate t = .ok ()
  covered : h.CoveredBy t
  dropped : ∀ s ∈ g.nonterminals, s ≠ g.start →
    (h.isDeclared s = false ↔ g.Dispensable removal s)

variable {g h k : Grammar} {t : SymbolTable} {name : String} {s : Symbol}

/-- A grammar keeps its own words. -/
theorem KeepsWords.refl (g : Grammar) : g.KeepsWords g :=
  ⟨rfl, rfl, fun _ hs => ⟨hs, rfl⟩⟩

/-- Words that are kept twice are kept. -/
theorem KeepsWords.trans (hkeeps : g.KeepsWords h) (hkeeps' : h.KeepsWords k) :
    g.KeepsWords k where
  start := hkeeps'.start.trans hkeeps.start
  language := hkeeps'.language.trans hkeeps.language
  nonterminals s hs := by
    obtain ⟨hs, hwords'⟩ := hkeeps'.nonterminals s hs
    obtain ⟨hs, hwords⟩ := hkeeps.nonterminals s hs
    exact ⟨hs, hwords'.trans hwords⟩

/-- With fewer declared symbols, no other names are taken. -/
theorem isTaken_eq_false_of_isDeclared (hdeclared : ∀ s, h.isDeclared s = true →
    g.isDeclared s = true) (hfree : g.isTaken t name = false) : h.isTaken t name = false := by
  rw [← Bool.not_eq_true] at hfree ⊢
  intro htaken
  apply hfree
  simp only [isTaken, declared?, Option.isSome_iff_exists, Option.filter_eq_some_iff] at htaken ⊢
  obtain ⟨s, hfind, hs⟩ := htaken
  exact ⟨s, hfind, hdeclared s hs⟩

/-! ### One removal -/

private theorem removedFrom_removeUnproductive (hcovered : g.CoveredBy t)
    (hvalid : g.validate t = .ok ()) : g.RemovedFrom g.removeUnproductive t .unproductive := by
  obtain ⟨hg, hfree⟩ := validate_eq_ok_iff.mp hvalid
  have hkept : ∀ s ∈ g.removeUnproductive.nonterminals, s ∈ g.nonterminals := by
    intro s hs
    rcases mem_nonterminals_removeUnproductive.mp hs with rfl | ⟨hs, _⟩
    · exact hg.start
    · exact hs
  have hdeclared : ∀ s, g.removeUnproductive.isDeclared s = true → g.isDeclared s = true :=
    fun s hs => isDeclared_iff.mpr ((isDeclared_iff.mp hs).imp_right (hkept s))
  refine ⟨⟨rfl, g.language_removeUnproductive, fun s hs => ?_⟩, ?_, hcovered.removeUnproductive,
    fun s hs hstart => ?_⟩
  · exact ⟨hkept s hs, by rw [wordsOf_removeUnproductive]⟩
  · exact validate_eq_ok_iff.mpr
      ⟨hg.removeUnproductive, isTaken_eq_false_of_isDeclared hdeclared hfree⟩
  · have hterminal : s ∉ g.removeUnproductive.terminals := hg.not_mem_terminals hs
    rw [isDeclared_eq_false_iff, and_iff_right hterminal, mem_nonterminals_removeUnproductive,
      or_iff_right hstart, and_iff_right hs, Set.not_nonempty_iff_eq_empty]
    rfl

private theorem ReachablePart.removedFrom (hpart : g.ReachablePart h) (hcovered : g.CoveredBy t)
    (hvalid : g.validate t = .ok ()) : g.RemovedFrom h t .unreachable := by
  obtain ⟨hg, hfree⟩ := validate_eq_ok_iff.mp hvalid
  have hdeclared : ∀ s, h.isDeclared s = true → g.isDeclared s = true := by
    intro s hs
    rw [isDeclared_iff] at hs ⊢
    exact hs.imp (fun hs => ((hpart.terminals s).mp hs).1)
      fun hs => ((hpart.nonterminals s).mp hs).1
  refine ⟨⟨hpart.start, hpart.language_eq, fun s hs => ?_⟩, ?_, hcovered.reachablePart hpart,
    fun s hs _ => ?_⟩
  · obtain ⟨hs, hreaches⟩ := (hpart.nonterminals s).mp hs
    exact ⟨hs, hpart.wordsOf_eq hreaches⟩
  · exact validate_eq_ok_iff.mpr
      ⟨hg.reachablePart hpart, isTaken_eq_false_of_isDeclared hdeclared hfree⟩
  · have hterminal : s ∉ h.terminals := fun hmem =>
      hg.not_mem_terminals hs ((hpart.terminals s).mp hmem).1
    rw [isDeclared_eq_false_iff, and_iff_right hterminal, hpart.nonterminals, and_iff_right hs,
      ← mem_sententialSymbols_iff]
    rfl

/-- A removal from a covered, valid grammar succeeds. -/
theorem remove_eq_ok (hcovered : g.CoveredBy t) (hvalid : g.validate t = .ok ())
    (removal : Removal) : ∃ h, g.remove t.size removal = .ok h ∧ g.RemovedFrom h t removal := by
  cases removal with
  | unproductive => exact ⟨_, rfl, removedFrom_removeUnproductive hcovered hvalid⟩
  | unreachable =>
    obtain ⟨h, hresult, hpart⟩ := removeUnreachable_eq_ok hcovered
    exact ⟨h, hresult, hpart.removedFrom hcovered hvalid⟩

/-! ### Many removals -/

private theorem removeAll_eq_ok (hcovered : g.CoveredBy t) (hvalid : g.validate t = .ok ())
    (removals : List Removal) : ∃ h, g.removeAll t.size removals = .ok h ∧ g.KeepsWords h ∧
      h.CoveredBy t ∧ h.validate t = .ok () := by
  induction removals generalizing g with
  | nil => exact ⟨g, rfl, KeepsWords.refl g, hcovered, hvalid⟩
  | cons removal rest ih =>
    obtain ⟨h, hresult, hremoved⟩ := remove_eq_ok hcovered hvalid removal
    obtain ⟨k, hresult', hkeeps, hcovered', hvalid'⟩ := ih hremoved.covered hremoved.valid
    refine ⟨k, ?_, hremoved.keeps.trans hkeeps, hcovered', hvalid'⟩
    rw [removeAll, hresult]
    exact hresult'

/-- Any sequence of removals from a covered, valid grammar keeps its start symbol, its language
and the words of the nonterminals that stay. One more removal does the same, and the nonterminals
that it undeclares are the start symbol never and any other exactly if the removal is about it. -/
theorem removals_keep_words (hcovered : g.CoveredBy t) (hvalid : g.validate t = .ok ())
    (removals : List Removal) :
    ∃ h, g.removeAll t.size removals = .ok h ∧ g.KeepsWords h ∧
      ∀ removal, ∃ k, h.remove t.size removal = .ok k ∧ h.RemovedFrom k t removal := by
  obtain ⟨h, hresult, hkeeps, hcovered', hvalid'⟩ := removeAll_eq_ok hcovered hvalid removals
  exact ⟨h, hresult, hkeeps, remove_eq_ok hcovered' hvalid'⟩

/-- The start symbol has a word, one rule of it cannot be used, and a nonterminal stands only in
that rule. -/
def stranded : Grammar where
  start := ⟨0⟩
  nonterminals := .ofList [⟨0⟩, ⟨1⟩, ⟨2⟩]
  terminals := .ofList [⟨3⟩]
  rules := [⟨⟨0⟩, [⟨3⟩]⟩, ⟨⟨0⟩, [⟨1⟩, ⟨2⟩]⟩, ⟨⟨1⟩, [⟨3⟩, ⟨1⟩]⟩, ⟨⟨2⟩, [⟨3⟩]⟩]

def strandedTable : SymbolTable := (SymbolTable.empty.internAll ["S", "A", "B", "a"]).2

/-- The nonterminal is reached until the unproductive symbol is gone, and goes with the next
removal. -/
theorem removals_keep_words_stranded : ∃ h k,
    stranded.removeAll strandedTable.size [.unreachable, .unproductive] = .ok h ∧
      h.nonterminals.toList = [⟨0⟩, ⟨2⟩] ∧ h.language = stranded.language ∧
      h.remove strandedTable.size .unreachable = .ok k ∧ k.isDeclared ⟨2⟩ = false ∧
      ⟨2⟩ ∉ h.sententialSymbols := by
  obtain ⟨h, hresult, hkeeps, hnext⟩ := removals_keep_words (g := stranded) (t := strandedTable)
    (by decide +kernel) (by decide +kernel) [.unreachable, .unproductive]
  obtain ⟨k, hresult', hremoved⟩ := hnext .unreachable
  have hseen : (stranded.removeAll strandedTable.size [.unreachable, .unproductive]).toOption.map
      (fun h => (h.nonterminals.toList,
        (h.remove strandedTable.size .unreachable).toOption.map fun k => k.isDeclared ⟨2⟩)) =
      some ([⟨0⟩, ⟨2⟩], some false) := by decide +kernel
  rw [hresult] at hseen
  obtain ⟨hkept, hdropped⟩ := Prod.mk.inj (Option.some.inj hseen)
  rw [hresult'] at hdropped
  have hmem : ⟨2⟩ ∈ h.nonterminals := SymbolSet.mem_toList.mp (by rw [hkept]; decide)
  have hne : (⟨2⟩ : Symbol) ≠ h.start := by
    rw [hkeeps.start]
    decide
  exact ⟨h, k, hresult, hkept, hkeeps.language, hresult', Option.some.inj hdropped,
    (hremoved.dropped ⟨2⟩ hmem hne).mp (Option.some.inj hdropped)⟩

end Grammar

end Chomsky
