import Chomsky.Proofs.BinaryCoverage
import Chomsky.Proofs.BinarySteps
import Chomsky.Proofs.Names
import Chomsky.Proofs.Stages

/-!
# The reserved mark and introduced names

No symbol of a valid grammar is called `ε`. A name is introduced by appending
suffixes to a wanted name or by numbering a stem. A number is never `ε`, and
suffixes lead there from the empty name only. So the mark stays reserved on the way
to normal form, unless it is itself a wanted name or is appended to an empty one.
Nothing else prevents it: the search for a free name passes over declared names only.
-/

namespace Chomsky

variable {suffix name stem : String}

/-- The name is not the mark and is not extended to it. -/
structure SparesMark (suffix name : String) : Prop where
  name_ne : name ≠ epsilonMark
  suffix_ne : name = "" → suffix ≠ epsilonMark

instance (suffix name : String) : Decidable (SparesMark suffix name) :=
  decidable_of_iff (name ≠ epsilonMark ∧ (name = "" → suffix ≠ epsilonMark))
    ⟨fun h => ⟨h.1, h.2⟩, fun h => ⟨h.name_ne, h.suffix_ne⟩⟩

/-! ### Names that are tried -/

private theorem usableSuffix_ne_mark (h : suffix ≠ epsilonMark) :
    usableSuffix suffix ≠ epsilonMark := by
  unfold usableSuffix
  split
  · decide
  · exact h

/-- The mark has one character, so it is reached with at most one suffix, from an empty name. -/
theorem SparesMark.withSuffixes_ne (h : SparesMark suffix name) (k : Nat) :
    withSuffixes (usableSuffix suffix) name k ≠ epsilonMark := by
  intro heq
  have hpos : 0 < (usableSuffix suffix).length :=
    Nat.pos_of_ne_zero fun hzero =>
      usableSuffix_ne_empty suffix (String.length_eq_zero_iff.mp hzero)
  have hlength : name.length + k * (usableSuffix suffix).length = 1 := by
    rw [← length_withSuffixes, heq]
    rfl
  match k with
  | 0 => exact h.name_ne heq
  | 1 =>
    have hname : name = "" := String.length_eq_zero_iff.mp (by omega)
    rw [hname] at heq
    have hsuffix : usableSuffix suffix = epsilonMark := by
      simpa only [withSuffixes, String.empty_append] using heq
    exact usableSuffix_ne_mark (h.suffix_ne hname) hsuffix
  | k + 2 =>
    have hmul : 2 * (usableSuffix suffix).length ≤ (k + 2) * (usableSuffix suffix).length :=
      Nat.mul_le_mul_right _ (by omega)
    omega

private theorem Grammar.freshName_ne_mark (h : SparesMark suffix name) (g : Grammar)
    (t : SymbolTable) :
    g.freshName t name suffix ≠ epsilonMark := by
  obtain ⟨k, heq, _⟩ := g.freshName_eq t name suffix
  rw [heq]
  exact h.withSuffixes_ne k

/-- A numbered name ends with a digit, and the mark does not. -/
theorem numberedName_ne_mark (stem : String) (n : Nat) : numberedName stem n ≠ epsilonMark := by
  intro heq
  have hchars : stem.toList ++ Nat.toDigits 10 n = ['ε'] := by
    have := congrArg String.toList heq
    simpa [numberedName, Text.decimal, epsilonMark] using this
  have hpos : 0 < (Nat.toDigits 10 n).length := Nat.length_toDigits_pos
  have hlength := congrArg List.length hchars
  rw [List.length_append, List.length_singleton] at hlength
  have hstem : stem.toList = [] := List.length_eq_zero_iff.mp (by omega)
  rw [hstem, List.nil_append] at hchars
  have hdigit : ('ε').isDigit = true :=
    Nat.isDigit_of_mem_toDigits (b := 10) (n := n) (by decide) (by decide) (by simp [hchars])
  exact absurd hdigit (by decide)

/-! ### Grammars without the mark -/

namespace Grammar

/-- No declared symbol is called `ε`. -/
def Unmarked (g : Grammar) (t : SymbolTable) : Prop :=
  ∀ s, g.isDeclared s = true → t.nameOf s ≠ epsilonMark

variable {g h : Grammar} {t t' : SymbolTable} {naming : Naming} {stages : Stages} {s : Symbol}

private theorem unmarked_iff (hcovered : g.CoveredBy t) (hsize : t.size ≤ UInt32.size) :
    g.Unmarked t ↔ g.isTaken t epsilonMark = false := by
  rw [← Bool.not_eq_true, isTaken_iff hcovered hsize]
  exact ⟨fun h ⟨s, hs, hname⟩ => h s hs hname, fun h s hs hname => h ⟨s, hs, hname⟩⟩

/-- A grammar that declares less than one without the mark does not have it either. -/
theorem Unmarked.mono (hg : g.Unmarked t) (hdeclared : ∀ s, h.isDeclared s = true →
    g.isDeclared s = true) : h.Unmarked t :=
  fun s hs => hg s (hdeclared s hs)

/-- A larger table does not bring the mark in. -/
theorem Unmarked.grow (hg : g.Unmarked t) (hcovered : g.CoveredBy t) (hgrows : t.GrowsTo t') :
    g.Unmarked t' := by
  intro s hs
  rw [hgrows.nameOf_eq (hcovered.declared hs)]
  exact hg s hs

/-- The removal of unproductive symbols does not bring the mark in. -/
theorem Unmarked.removeUnproductive (hg : g.Unmarked t) (hwell : g.WellFormed) :
    g.removeUnproductive.Unmarked t := by
  refine hg.mono fun s hs => isDeclared_iff.mpr ?_
  refine (isDeclared_iff.mp hs).imp_right fun hmem => ?_
  rcases mem_nonterminals_removeUnproductive.mp hmem with rfl | ⟨hmem, _⟩
  · exact hwell.start
  · exact hmem

/-- The reachable part does not have the mark either. -/
theorem Unmarked.reachablePart (hg : g.Unmarked t) (hpart : g.ReachablePart h) :
    h.Unmarked t := by
  refine hg.mono fun s hs => isDeclared_iff.mpr ?_
  exact (isDeclared_iff.mp hs).imp (fun hmem => ((hpart.terminals s).mp hmem).1)
    fun hmem => ((hpart.nonterminals s).mp hmem).1

/-- The elimination of unit rules does not bring the mark in. -/
theorem Unmarked.unitFreeForm (hg : g.Unmarked t) (hform : g.UnitFreeForm h) : h.Unmarked t := by
  refine hg.mono fun s hs => isDeclared_iff.mpr ?_
  rwa [isDeclared_iff, hform.terminals, hform.nonterminals] at hs

/-- The only declared symbol that elimination of epsilon rules adds is the new start symbol. -/
theorem Unmarked.expandEpsilon (hg : g.Unmarked t) (hcovered : g.CoveredBy t)
    (hname : SparesMark naming.startSuffix (g.newStartName t naming))
    (hsize : (g.expandEpsilon t naming).2.size ≤ UInt32.size) :
    (g.expandEpsilon t naming).1.Unmarked (g.expandEpsilon t naming).2 := by
  by_cases hstart : g.start ∈ g.nullableSymbols
  · rw [expandEpsilon_of_nullable hstart] at hsize ⊢
    intro s hs
    rcases isDeclared_iff.mp hs with hmem | hmem
    · exact hg.grow hcovered (t.growsTo_intern _) s (isDeclared_iff.mpr (Or.inl hmem))
    · rcases mem_nonterminals_prependStart.mp hmem with rfl | hmem
      · have hnew : (g.newStart t naming).2.nameOf (g.newStart t naming).1 =
            g.freshName t (g.newStartName t naming) naming.startSuffix :=
          SymbolTable.nameOf_intern hsize
        rw [hnew]
        exact freshName_ne_mark hname g t
      · exact hg.grow hcovered (t.growsTo_intern _) s (isDeclared_iff.mpr (Or.inr hmem))
  · rw [expandEpsilon_of_not_nullable hstart]
    exact hg

end Grammar

/-! ### Splitting -/

namespace Binarization

variable {b b' : Binarization} {naming : Naming} {s : Symbol} {rhs : List Symbol}

/-- The names wanted for wrappers spare the mark, and no declared symbol has it as long as numbers
suffice. -/
structure Unmarked (naming : Naming) (b : Binarization) : Prop where
  memo : b.memo.naming = naming
  covers : ∀ s, b.grammar.isDeclared s = true → b.table.Covers s
  wanted : ∀ s ∈ b.grammar.terminals,
    SparesMark naming.startSuffix (naming.wrapperStem ++ b.table.nameOf s)
  declared : b.table.size ≤ UInt32.size → b.grammar.Unmarked b.table

/-- An introduced symbol only has to spare the mark itself. -/
theorem Unmarked.introduces (hb : b.Unmarked naming) (hnew : b.Introduces b' s rhs)
    (hnaming : b'.memo.naming = b.memo.naming)
    (hname : b'.table.size ≤ UInt32.size → b'.table.nameOf s ≠ epsilonMark) :
    b'.Unmarked naming where
  memo := hnaming.trans hb.memo
  covers x hx := by
    rcases hnew.isDeclared_iff.mp hx with hx | rfl
    · exact hnew.grows.covers (hb.covers x hx)
    · exact hnew.covers
  wanted x hx := by
    have hold : x ∈ b.grammar.terminals := by rwa [hnew.grammar] at hx
    have hcovers := hb.covers x (Grammar.isDeclared_iff.mpr (Or.inl hold))
    rw [hnew.grows.nameOf_eq hcovers]
    exact hb.wanted x hold
  declared hsize x hx := by
    rcases hnew.isDeclared_iff.mp hx with hx | rfl
    · rw [hnew.grows.nameOf_eq (hb.covers x hx)]
      exact hb.declared (Nat.le_trans hnew.grows.size_le hsize) x hx
    · exact hname hsize

private theorem keptBySteps_unmarked (naming : Naming) : KeptBySteps (Unmarked naming) where
  addWrapper b s hs hb := by
    refine hb.introduces (b.introduces_addWrapper s) rfl fun hsize => ?_
    have hname : (b.addWrapper s).2.table.nameOf (b.addWrapper s).1 = b.grammar.freshName b.table
        (b.memo.naming.wrapperStem ++ b.table.nameOf s) b.memo.naming.startSuffix :=
      SymbolTable.nameOf_intern hsize
    rw [hname, hb.memo]
    exact Grammar.freshName_ne_mark (hb.wanted s hs) b.grammar b.table
  addHelper b left right hb := by
    refine hb.introduces (b.introduces_addHelper left right) rfl fun hsize => ?_
    have hname : (b.addHelper left right).2.table.nameOf (b.addHelper left right).1 = numberedName
        b.memo.naming.helperStem (b.grammar.freshNumber b.table b.memo.naming.helperStem
          (b.memo.lastNumber + 1)) :=
      SymbolTable.nameOf_intern hsize
    rw [hname]
    exact numberedName_ne_mark _ _
  emit b rule hb := ⟨hb.memo, hb.covers, hb.wanted, hb.declared⟩

end Binarization

namespace Grammar

variable {g h : Grammar} {t t' : SymbolTable} {naming : Naming} {stages : Stages} {s : Symbol}

/-- Binarization does not bring the mark in if no wrapper is named so. -/
theorem Unmarked.binarize (hg : g.Unmarked t) (hcovered : g.CoveredBy t)
    (hwanted : ∀ s ∈ g.terminals,
      SparesMark naming.startSuffix (naming.wrapperStem ++ t.nameOf s))
    (hsize : (g.binarize { naming } t).table.size ≤ UInt32.size) :
    (g.binarize { naming } t).grammar.Unmarked (g.binarize { naming } t).table := by
  have hstart : Binarization.Unmarked naming
      { memo := { naming }, table := t, grammar := g.withRules [] } :=
    ⟨rfl, fun _ hs => hcovered.declared hs, hwanted, fun _ => hg⟩
  exact ((Binarization.keptBySteps_unmarked naming).addSplits g.rules hstart).declared hsize

/-! ### The way to normal form -/

/-- The wanted name of a new start symbol and those of wrappers spare the mark. -/
structure WantsNoMark (g : Grammar) (t : SymbolTable) (naming : Naming) : Prop where
  newStart : SparesMark naming.startSuffix (g.newStartName t naming)
  wrappers : ∀ s ∈ g.terminals, SparesMark naming.startSuffix (naming.wrapperStem ++ t.nameOf s)

instance (g : Grammar) (t : SymbolTable) (naming : Naming) : Decidable (g.WantsNoMark t naming) :=
  decidable_of_iff (SparesMark naming.startSuffix (g.newStartName t naming) ∧
      ∀ s ∈ g.terminals.toList, SparesMark naming.startSuffix (naming.wrapperStem ++ t.nameOf s))
    ⟨fun h => ⟨h.1, fun s hs => h.2 s (SymbolSet.mem_toList.mpr hs)⟩,
      fun h => ⟨h.newStart, fun s hs => h.wrappers s (SymbolSet.mem_toList.mp hs)⟩⟩

/-- No terminal is added before rules are split. -/
theorem Staged.mem_terminals_unitFree (hstaged : g.Staged t naming stages t')
    (hs : s ∈ stages.unitFree.terminals) : s ∈ g.terminals := by
  rw [hstaged.unitFree.terminals, hstaged.epsilonFree, mem_terminals_eliminateEpsilon] at hs
  have hs := ((hstaged.reachable.terminals s).mp hs).1
  rwa [hstaged.productive] at hs

namespace Staged

section Unmarked

variable (hstaged : g.Staged t naming stages t') (hg : g.WellFormed) (hunmarked : g.Unmarked t)

include hstaged hg hunmarked

private theorem unmarked_productive : stages.productive.Unmarked t := by
  rw [hstaged.productive]
  exact hunmarked.removeUnproductive hg

private theorem unmarked_reachable : stages.reachable.Unmarked t :=
  (hstaged.unmarked_productive hg hunmarked).reachablePart hstaged.reachable

variable (hcovered : g.CoveredBy t) (hsize : t'.size ≤ UInt32.size)
  (hwants : g.WantsNoMark t naming)

include hcovered hsize hwants

private theorem unmarked_epsilonFree :
    stages.epsilonFree.Unmarked (stages.epsilonTable t naming) := by
  have hsize' := Nat.le_trans hstaged.growsTo.2.size_le hsize
  have hsound := hstaged.sound_reachable hg hcovered
  have hstart : stages.reachable.start = g.start := by
    rw [hstaged.reachable.start, hstaged.productive]
    rfl
  have hname : SparesMark naming.startSuffix (stages.reachable.newStartName t naming) := by
    rw [newStartName, hstart]
    exact hwants.newStart
  have hreachable := hstaged.unmarked_reachable hg hunmarked
  rw [hstaged.epsilonFree]
  exact (hreachable.expandEpsilon hsound.covered hname hsize').removeUnproductive
    (hsound.wellFormed.expandEpsilon hsound.covered hsize')

private theorem unmarked_unitFree : stages.unitFree.Unmarked (stages.epsilonTable t naming) :=
  (hstaged.unmarked_epsilonFree hg hunmarked hcovered hsize hwants).unitFreeForm hstaged.unitFree

private theorem unmarked_split : (stages.split t naming).grammar.Unmarked t' := by
  have hunitFree := hstaged.unmarked_unitFree hg hunmarked hcovered hsize hwants
  have hsound := hstaged.sound_unitFree hg hcovered hsize
  have hwanted : ∀ s ∈ stages.unitFree.terminals, SparesMark naming.startSuffix
      (naming.wrapperStem ++ (stages.epsilonTable t naming).nameOf s) := by
    intro s hs
    have hterminal := hstaged.mem_terminals_unitFree hs
    rw [hstaged.growsTo.1.nameOf_eq (hcovered.terminals s hterminal)]
    exact hwants.wrappers s hterminal
  rw [hstaged.table] at hsize ⊢
  exact hunitFree.binarize hsound.covered hwanted hsize

private theorem unmarked_cnf : stages.cnf.Unmarked t' := by
  have hsplit := hstaged.unmarked_split hg hunmarked hcovered hsize hwants
  have hwell := (hstaged.sound_split hg hcovered hsize).wellFormed
  exact (hsplit.removeUnproductive hwell).reachablePart hstaged.cnf

/-- The mark is declared at no stage, by the names of the last table. -/
theorem unmarked : ∀ stage ∈ stages.toList, stage.Unmarked t' := by
  obtain ⟨hgrows, hgrows'⟩ := hstaged.growsTo
  have hlast := hgrows.trans hgrows'
  simp only [Stages.toList, List.mem_cons, List.not_mem_nil, or_false]
  rintro stage (rfl | rfl | rfl | rfl | rfl)
  · exact (hstaged.unmarked_productive hg hunmarked).grow
      (hstaged.sound_productive hg hcovered).covered hlast
  · exact (hstaged.unmarked_reachable hg hunmarked).grow
      (hstaged.sound_reachable hg hcovered).covered hlast
  · exact (hstaged.unmarked_epsilonFree hg hunmarked hcovered hsize hwants).grow
      (hstaged.sound_epsilonFree hg hcovered hsize).covered hgrows'
  · exact (hstaged.unmarked_unitFree hg hunmarked hcovered hsize hwants).grow
      (hstaged.sound_unitFree hg hcovered hsize).covered hgrows'
  · exact hstaged.unmarked_cnf hg hunmarked hcovered hsize hwants

end Unmarked

end Staged

/-- If no wanted name leads to the mark, no stage declares it, so every stage is valid. -/
theorem normalize_spares_mark (hcovered : g.CoveredBy t)
    (hresult : (g.normalize t naming).outcome = .ok (.cnf stages, t'))
    (hsize : t'.size ≤ UInt32.size) (hwants : g.WantsNoMark t naming) :
    ∀ stage ∈ stages.toList, stage.Unmarked t' ∧ stage.validate t' = .ok () := by
  obtain ⟨hwell, _, hstaged⟩ := staged_of_normalize hcovered hresult
  obtain ⟨hgrows, hgrows'⟩ := hstaged.growsTo
  have hfree := (validate_eq_ok_iff.mp (validate_of_normalize hresult)).2
  have hsize' := Nat.le_trans (hgrows.trans hgrows').size_le hsize
  have hunmarked := (unmarked_iff hcovered hsize').mpr hfree
  intro stage hstage
  have hsound := hstaged.sound hwell hcovered hsize stage hstage
  have hstage' := hstaged.unmarked hwell hunmarked hcovered hsize hwants stage hstage
  refine ⟨hstage', validate_eq_ok_iff.mpr ⟨hsound.wellFormed, ?_⟩⟩
  exact (unmarked_iff hsound.covered hsize).mp hstage'

/-- A grammar for the empty word and one letter, whose start symbol has the empty name. -/
def unnamed : Grammar where
  start := ⟨0⟩
  nonterminals := .ofList [⟨0⟩]
  terminals := .ofList [⟨1⟩]
  rules := [⟨⟨0⟩, []⟩, ⟨⟨0⟩, [⟨1⟩]⟩]

def unnamedTable : SymbolTable := (SymbolTable.empty.internAll ["", "a"]).2

/-- With the usual suffix the new start symbol is called by an apostrophe. -/
theorem normalize_unnamed_spares_mark : ∃ stages t',
    (unnamed.normalize unnamedTable {}).outcome = .ok (.cnf stages, t') ∧
      ∀ stage ∈ stages.toList, stage.Unmarked t' ∧ stage.validate t' = .ok () := by
  have hcovered : unnamed.CoveredBy unnamedTable := by decide +kernel
  obtain ⟨stages, t', hresult, hsize⟩ := normalize_of_size (n := 3) hcovered (by decide +kernel)
    (by decide +kernel) {} (by decide +kernel)
  have hsize' : t'.size ≤ UInt32.size := hsize.trans_le (by decide)
  exact ⟨stages, t', hresult,
    normalize_spares_mark hcovered hresult hsize' (by decide +kernel)⟩

/-- The fault of the grammar without epsilon rules. -/
def epsilonFreeFault? (t : SymbolTable) : Normalized → Option GrammarError
  | .emptyLanguage => none
  | .cnf stages => stages.epsilonFree.fault? t

/-- With the mark for a suffix the new start symbol takes the reserved name. -/
theorem normalize_unnamed_takes_mark :
    unnamed.CoveredBy unnamedTable ∧ unnamed.validate unnamedTable = .ok () ∧
      ∃ stages t', (unnamed.normalize unnamedTable { startSuffix := epsilonMark }).outcome =
          .ok (.cnf stages, t') ∧ t'.size ≤ UInt32.size ∧
        ∃ stage ∈ stages.toList, ¬stage.Unmarked t' ∧
          stage.validate t' = .error .reservedEpsilon := by
  have hcovered : unnamed.CoveredBy unnamedTable := by decide +kernel
  have hvalid : unnamed.validate unnamedTable = .ok () := by decide +kernel
  obtain ⟨stages, t', hresult, hsize⟩ := normalize_of_size (n := 3) hcovered hvalid
    (by decide +kernel) { startSuffix := epsilonMark } (by decide +kernel)
  have hsize' : t'.size ≤ UInt32.size := hsize.trans_le (by decide)
  have hseen : (unnamed.normalize unnamedTable { startSuffix := epsilonMark }).outcome.toOption.map
      (fun result => epsilonFreeFault? result.2 result.1) = some (some .reservedEpsilon) := by
    decide +kernel
  rw [hresult] at hseen
  have hfault : stages.epsilonFree.fault? t' = some .reservedEpsilon := Option.some.inj hseen
  obtain ⟨hwell, _, hstaged⟩ := staged_of_normalize hcovered hresult
  have hstage : stages.epsilonFree ∈ stages.toList := by simp [Stages.toList]
  have hsound := hstaged.sound hwell hcovered hsize' _ hstage
  refine ⟨hcovered, hvalid, stages, t', hresult, hsize', _, hstage, fun hunmarked => ?_, ?_⟩
  · have hfree := (unmarked_iff hsound.covered hsize').mp hunmarked
    rw [fault?_eq_none_iff.mpr ⟨hsound.wellFormed, hfree⟩] at hfault
    cases hfault
  · rw [validate, hfault]

end Grammar

end Chomsky
