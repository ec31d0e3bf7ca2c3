import Chomsky.Proofs.UnitFree

/-!
# Grammars with split rules

A block is a sequence of symbols that gets a nonterminal of its own when long
rules are split: a single terminal of a long right side, or a proper beginning of
one with at least two symbols. A grammar is a splitting of another when its rules
are the short rules, the definitions of all blocks and what is left of each long
rule, under a naming of blocks by fresh symbols. This determines the rules as a
set, and leaves open in which order blocks were met.

A splitting keeps the words of every declared symbol: an introduced symbol has
the words of its block.
-/

namespace Chomsky

/-- The blocks of a rule: if it is long, the terminals of its right side and its proper
beginnings of two or more symbols. -/
def Rule.blocks (terminals : SymbolSet) (rule : Rule) : Set (List Symbol) :=
  {block | 2 ≤ rule.rhs.length ∧ ((∃ s ∈ rule.rhs, s ∈ terminals ∧ block = [s]) ∨
    (2 ≤ block.length ∧ block <+: rule.rhs ∧ block ≠ rule.rhs))}

/-- The right side that defines the name of a block: a terminal stands for itself, and a longer
block is split before its last symbol. -/
inductive Defines (name : List Symbol → Symbol) : List Symbol → List Symbol → Prop where
  | wrapper (s : Symbol) : Defines name [s] [s]
  | helper {block : List Symbol} (hne : block ≠ []) (s : Symbol) :
      Defines name (block ++ [s]) [name block, name [s]]

/-- The rules of a splitting: the short ones, the definitions of blocks, and what is left of the
long ones. -/
inductive SplitRule (blocks : Set (List Symbol)) (rules : List Rule)
    (name : List Symbol → Symbol) : Rule → Prop where
  | short {rule : Rule} (hrule : rule ∈ rules) (hlength : rule.rhs.length ≤ 1) :
      SplitRule blocks rules name rule
  | definition {block rhs : List Symbol} (hblock : block ∈ blocks)
      (hdefines : Defines name block rhs) : SplitRule blocks rules name ⟨name block, rhs⟩
  | long {lhs s : Symbol} {block : List Symbol} (hne : block ≠ [])
      (hrule : ⟨lhs, block ++ [s]⟩ ∈ rules) :
      SplitRule blocks rules name ⟨lhs, [name block, name [s]]⟩

/-- A block is defined in one way only. -/
theorem Defines.unique {name : List Symbol → Symbol} {block rhs rhs' : List Symbol}
    (h : Defines name block rhs) (h' : Defines name block rhs') : rhs = rhs' := by
  cases h with
  | wrapper s =>
    generalize hblock : [s] = block at h'
    cases h' with
    | wrapper s' => rfl
    | helper hne s' => simp [List.singleton_eq_append_iff, hne] at hblock
  | @helper left hne s =>
    generalize hblock : left ++ [s] = block at h'
    cases h' with
    | wrapper s' => simp [List.append_eq_singleton_iff, hne] at hblock
    | helper hne' s' =>
      obtain ⟨rfl, heq⟩ := List.append_inj' hblock rfl
      rw [List.singleton_inj.mp heq]

namespace Grammar

/-- The blocks that the rules introduce. -/
def blocks (g : Grammar) : Set (List Symbol) :=
  {block | ∃ rule ∈ g.rules, block ∈ rule.blocks g.terminals}

/-- The sequences that have a name once some blocks are introduced: these blocks and the single
nonterminals. -/
def parts (g : Grammar) (blocks : Set (List Symbol)) : Set (List Symbol) :=
  {block | block ∈ blocks ∨ ∃ a ∈ g.nonterminals, block = [a]}

/-- Nonterminals keep their names, and blocks are named by symbols that are not declared, each by
one of its own. -/
structure NamesBlocks (g : Grammar) (blocks : Set (List Symbol)) (name : List Symbol → Symbol) :
    Prop where
  letter : ∀ s, s ∉ g.terminals → name [s] = s
  fresh : ∀ block ∈ blocks, g.isDeclared (name block) = false
  injective : Set.InjOn name blocks

/-- The second grammar has the symbols of the first and names for the blocks, and the given rules
in split form. -/
structure SplitInto (g h : Grammar) (blocks : Set (List Symbol)) (rules : List Rule)
    (name : List Symbol → Symbol) : Prop extends NamesBlocks g blocks name where
  start : h.start = g.start
  terminals : h.terminals = g.terminals
  nonterminals : ∀ s, s ∈ h.nonterminals ↔ s ∈ g.nonterminals ∨ ∃ block ∈ blocks, name block = s
  rules : ∀ rule, rule ∈ h.rules ↔ SplitRule blocks rules name rule

/-- The second grammar is the first with all its rules split. -/
def SplitBy (g h : Grammar) (name : List Symbol → Symbol) : Prop :=
  g.SplitInto h g.blocks g.rules name

variable {g h : Grammar} {t : SymbolTable} {name : List Symbol → Symbol} {s : Symbol} {rule : Rule}
  {blocks : Set (List Symbol)} {block : List Symbol}

/-! ### Blocks and their names -/

/-- A single symbol that is a block is a terminal. -/
theorem mem_terminals_of_mem_blocks (hblock : [s] ∈ g.blocks) : s ∈ g.terminals := by
  obtain ⟨_, _, _, ⟨x, _, hx, heq⟩ | ⟨hlength, _⟩⟩ := hblock
  · obtain rfl : s = x := by simpa using heq
    exact hx
  · simp at hlength

/-- No block is empty. -/
theorem ne_nil_of_mem_blocks (hblock : block ∈ g.blocks) : block ≠ [] := by
  obtain ⟨_, _, _, ⟨_, _, _, rfl⟩ | ⟨hlength, _⟩⟩ := hblock
  · simp
  · rintro rfl
    simp at hlength

/-- The symbols of a block stand on the right side of a rule. -/
theorem mem_rhs_of_mem_blocks (hblock : block ∈ g.blocks) (hs : s ∈ block) :
    ∃ rule ∈ g.rules, s ∈ rule.rhs := by
  obtain ⟨rule, hrule, _, ⟨x, hx, _, rfl⟩ | ⟨_, hbegins, _⟩⟩ := hblock
  · exact ⟨rule, hrule, by rwa [List.mem_singleton.mp hs]⟩
  · exact ⟨rule, hrule, hbegins.subset hs⟩

/-- A part of several symbols is a block. -/
theorem mem_blocks_of_mem_parts (hne : block ≠ []) (hpart : block ++ [s] ∈ g.parts blocks) :
    block ++ [s] ∈ blocks := by
  rcases hpart with hblock | ⟨a, _, heq⟩
  · exact hblock
  · simp [List.append_eq_singleton_iff, hne] at heq

private theorem ne_nil_of_mem_parts (hpart : block ∈ g.parts g.blocks) : block ≠ [] := by
  rcases hpart with hblock | ⟨a, _, rfl⟩
  · exact ne_nil_of_mem_blocks hblock
  · exact List.cons_ne_nil a []

/-- The symbols of a long right side are parts. -/
theorem WellFormed.singleton_mem_parts (hg : g.WellFormed) (hrule : rule ∈ g.rules)
    (hlength : 2 ≤ rule.rhs.length) (hs : s ∈ rule.rhs) : [s] ∈ g.parts g.blocks := by
  rcases hg.rhs rule hrule s hs with hterminal | hnonterminal
  · exact Or.inl ⟨rule, hrule, hlength, Or.inl ⟨s, hs, hterminal, rfl⟩⟩
  · exact Or.inr ⟨s, hnonterminal, rfl⟩

/-- Every proper beginning of a long right side is a part. -/
theorem WellFormed.prefix_mem_parts (hg : g.WellFormed) (hrule : rule ∈ g.rules)
    (hbegins : block ++ [s] <+: rule.rhs) (hne : block ≠ []) : block ∈ g.parts g.blocks := by
  have hlength := hbegins.length_le
  have hpos := List.length_pos_of_ne_nil hne
  rw [List.length_append, List.length_singleton] at hlength
  by_cases hlong : 2 ≤ block.length
  · refine Or.inl ⟨rule, hrule, by omega, Or.inr ⟨hlong, ?_, ?_⟩⟩
    · exact (List.prefix_append block [s]).trans hbegins
    · rintro rfl
      omega
  · obtain ⟨a, rfl⟩ := List.length_eq_one_iff.mp (show block.length = 1 by omega)
    exact hg.singleton_mem_parts hrule (by simpa using hlength) (hbegins.subset (by simp))

/-- A block of several symbols is composed of parts. -/
theorem WellFormed.parts_of_block (hg : g.WellFormed) (hne : block ≠ [])
    (hblock : block ++ [s] ∈ g.blocks) : block ∈ g.parts g.blocks ∧ [s] ∈ g.parts g.blocks := by
  obtain ⟨rule, hrule, hlength, ⟨x, _, _, heq⟩ | ⟨_, hbegins, _⟩⟩ := hblock
  · simp [List.append_eq_singleton_iff, hne] at heq
  · exact ⟨hg.prefix_mem_parts hrule hbegins hne,
      hg.singleton_mem_parts hrule hlength (hbegins.subset (by simp))⟩

/-- A long right side is composed of parts. -/
theorem WellFormed.parts_of_rule (hg : g.WellFormed) (hne : block ≠ []) {lhs : Symbol}
    (hrule : ⟨lhs, block ++ [s]⟩ ∈ g.rules) :
    block ∈ g.parts g.blocks ∧ [s] ∈ g.parts g.blocks := by
  have hpos := List.length_pos_of_ne_nil hne
  refine ⟨hg.prefix_mem_parts hrule (List.prefix_refl _) hne,
    hg.singleton_mem_parts hrule ?_ (by simp)⟩
  simp only [List.length_append, List.length_singleton]
  omega

/-- Different parts have different names. -/
theorem NamesBlocks.injOn_parts (hnames : g.NamesBlocks blocks name) (hg : g.WellFormed) :
    Set.InjOn name (g.parts blocks) := by
  have hletter : ∀ a ∈ g.nonterminals, name [a] = a := fun a ha =>
    hnames.letter a (hg.not_mem_terminals ha)
  have hdistinct : ∀ block ∈ blocks, ∀ a ∈ g.nonterminals, name block ≠ name [a] := by
    intro block hblock a ha heq
    have hfresh := hnames.fresh block hblock
    rw [heq, hletter a ha] at hfresh
    exact (isDeclared_eq_false_iff.mp hfresh).2 ha
  rintro block (hblock | ⟨a, ha, rfl⟩) block' (hblock' | ⟨a', ha', rfl⟩) heq
  · exact hnames.injective hblock hblock' heq
  · exact absurd heq (hdistinct block hblock a' ha')
  · exact absurd heq.symm (hdistinct block' hblock' a ha)
  · rw [hletter a ha, hletter a' ha'] at heq
    rw [heq]

/-- The name of a part is a nonterminal of the splitting. -/
theorem SplitInto.name_mem {rules : List Rule} (hsplit : g.SplitInto h blocks rules name)
    (hg : g.WellFormed) (hpart : block ∈ g.parts blocks) : name block ∈ h.nonterminals := by
  rw [hsplit.nonterminals]
  rcases hpart with hblock | ⟨a, ha, rfl⟩
  · exact Or.inr ⟨block, hblock, rfl⟩
  · rw [hsplit.letter a (hg.not_mem_terminals ha)]
    exact Or.inl ha

namespace SplitBy

/-! ### Words of a splitting -/

open Classical in
/-- An introduced symbol stands for its block, any other symbol for itself. -/
noncomputable def expansion (g : Grammar) (name : List Symbol → Symbol) (s : Symbol) :
    List Symbol :=
  if h : ∃ block ∈ g.blocks, name block = s then h.choose else [s]

private theorem expansion_of_isDeclared (hsplit : g.SplitBy h name) (hs : g.isDeclared s = true) :
    expansion g name s = [s] := by
  apply dif_neg
  rintro ⟨block, hblock, rfl⟩
  rw [hsplit.fresh block hblock] at hs
  cases hs

/-- The name of a block is expanded to that block. -/
theorem expansion_of_part (hsplit : g.SplitBy h name) (hg : g.WellFormed)
    (hpart : block ∈ g.parts g.blocks) : expansion g name (name block) = block := by
  rcases hpart with hblock | ⟨a, ha, rfl⟩
  · have hexists : ∃ block' ∈ g.blocks, name block' = name block := ⟨block, hblock, rfl⟩
    rw [expansion, dif_pos hexists]
    exact hsplit.injective hexists.choose_spec.1 hblock hexists.choose_spec.2
  · rw [hsplit.letter a (hg.not_mem_terminals ha)]
    exact hsplit.expansion_of_isDeclared (isDeclared_iff.mpr (Or.inr ha))

/-- With introduced symbols expanded, a rule of the splitting is a rule of the grammar or says
what its left side stands for. -/
theorem expand_rule (hsplit : g.SplitBy h name) (hg : g.WellFormed) (hrule : rule ∈ h.rules) :
    (expansion g name rule.lhs = [rule.lhs] ∧
        ⟨rule.lhs, rule.rhs.flatMap (expansion g name)⟩ ∈ g.rules) ∨
      (expansion g name rule.lhs ∈ g.blocks ∧
        expansion g name rule.lhs = rule.rhs.flatMap (expansion g name)) := by
  have hdeclared : ∀ s, s ∈ g.terminals ∨ s ∈ g.nonterminals → expansion g name s = [s] :=
    fun s hs => hsplit.expansion_of_isDeclared (isDeclared_iff.mpr hs)
  cases (hsplit.rules rule).mp hrule with
  | short hrule hlength =>
    have hrhs : rule.rhs.flatMap (expansion g name) = rule.rhs := by
      have hall := hg.rhs rule hrule
      rw [List.flatMap_congr fun s hs => hdeclared s (hall s hs)]
      simp
    rw [hrhs]
    exact Or.inl ⟨hdeclared _ (Or.inr (hg.lhs rule hrule)), hrule⟩
  | definition hblock hdefines =>
    rw [hsplit.expansion_of_part hg (Or.inl hblock)]
    refine Or.inr ⟨hblock, ?_⟩
    cases hdefines with
    | wrapper s => simp [hdeclared s (Or.inl (mem_terminals_of_mem_blocks hblock))]
    | helper hne s =>
      obtain ⟨hleft, hright⟩ := hg.parts_of_block hne hblock
      simp [hsplit.expansion_of_part hg hleft, hsplit.expansion_of_part hg hright]
  | long hne hlong =>
    obtain ⟨hleft, hright⟩ := hg.parts_of_rule hne hlong
    have hlhs := hg.lhs _ hlong
    refine Or.inl ⟨hdeclared _ (Or.inr hlhs), ?_⟩
    simpa [hsplit.expansion_of_part hg hleft, hsplit.expansion_of_part hg hright] using hlong

/-- A single symbol passes its words on to its name. -/
theorem wordsOf_subset_letter (hsplit : g.SplitBy h name) (hg : g.WellFormed)
    (hpart : [s] ∈ g.parts g.blocks) : h.wordsOf s ⊆ h.wordsOf (name [s]) := by
  rcases hpart with hblock | ⟨a, ha, heq⟩
  · have hwrapper : ⟨name [s], [s]⟩ ∈ h.rules :=
      (hsplit.rules _).mpr (.definition hblock (.wrapper s))
    have hwords := h.fitsWords_wordsOf.rules _ hwrapper
    rwa [formWords_singleton] at hwords
  · obtain rfl : s = a := by simpa using heq
    rw [hsplit.letter s (hg.not_mem_terminals ha)]

/-- Read as words of the splitting, a part yields only words of its name. -/
theorem formWords_subset_name (hsplit : g.SplitBy h name) (hg : g.WellFormed)
    (hpart : block ∈ g.parts g.blocks) : formWords h.wordsOf block ⊆ h.wordsOf (name block) := by
  induction block using List.reverseRecOn with
  | nil => exact absurd rfl (ne_nil_of_mem_parts hpart)
  | append_singleton block s ih =>
    by_cases hne : block = []
    · subst hne
      rw [List.nil_append] at hpart ⊢
      rw [formWords_singleton]
      exact hsplit.wordsOf_subset_letter hg hpart
    · have hblock := mem_blocks_of_mem_parts hne hpart
      obtain ⟨hleft, hright⟩ := hg.parts_of_block hne hblock
      have hhelper : ⟨name (block ++ [s]), [name block, name [s]]⟩ ∈ h.rules :=
        (hsplit.rules _).mpr (.definition hblock (.helper hne s))
      have hpair := h.fitsWords_wordsOf.rules _ hhelper
      refine Set.Subset.trans ?_ hpair
      rw [formWords_append, formWords_singleton, formWords_pair]
      exact Set.image2_subset (ih hleft) (hsplit.wordsOf_subset_letter hg hright)

/-- A splitting keeps the words of every declared symbol. -/
theorem wordsOf_eq (hsplit : g.SplitBy h name) (hg : g.WellFormed) (hs : g.isDeclared s = true) :
    h.wordsOf s = g.wordsOf s := by
  have hsound : h.FitsWords fun s => formWords g.wordsOf (expansion g name s) := by
    refine ⟨fun s hs => ?_, fun rule hrule => ?_⟩
    · rw [hsplit.terminals] at hs
      rw [hsplit.expansion_of_isDeclared (isDeclared_iff.mpr (Or.inl hs)), formWords_singleton]
      exact g.fitsWords_wordsOf.terminals s hs
    · rw [← formWords_flatMap]
      rcases hsplit.expand_rule hg hrule with ⟨hlhs, hrule⟩ | ⟨_, hdefines⟩
      · rw [hlhs, formWords_singleton]
        exact g.fitsWords_wordsOf.rules _ hrule
      · rw [hdefines]
  have hcomplete : g.FitsWords h.wordsOf := by
    refine ⟨fun s hs => h.fitsWords_wordsOf.terminals s (hsplit.terminals ▸ hs), ?_⟩
    rintro ⟨lhs, rhs⟩ hrule
    by_cases hlength : rhs.length ≤ 1
    · exact h.fitsWords_wordsOf.rules _ ((hsplit.rules _).mpr (.short hrule hlength))
    · have hrhs : rhs ≠ [] := by
        rintro rfl
        simp at hlength
      obtain ⟨block, s, rfl⟩ := (List.eq_nil_or_concat' rhs).resolve_left hrhs
      have hne : block ≠ [] := by
        rintro rfl
        simp at hlength
      obtain ⟨hleft, hright⟩ := hg.parts_of_rule hne hrule
      have hlong : ⟨lhs, [name block, name [s]]⟩ ∈ h.rules := (hsplit.rules _).mpr (.long hne hrule)
      have hpair := h.fitsWords_wordsOf.rules _ hlong
      refine Set.Subset.trans ?_ hpair
      rw [formWords_append, formWords_singleton, formWords_pair]
      exact Set.image2_subset (hsplit.formWords_subset_name hg hleft)
        (hsplit.wordsOf_subset_letter hg hright)
  apply Set.Subset.antisymm
  · have hsubset := hsound.wordsOf_subset s
    rwa [hsplit.expansion_of_isDeclared hs, formWords_singleton] at hsubset
  · exact hcomplete.wordsOf_subset s

/-- A grammar that is split by blocks has the same language. -/
theorem language_eq (hsplit : g.SplitBy h name) (hg : g.WellFormed) : h.language = g.language := by
  rw [language, hsplit.start, hsplit.wordsOf_eq hg (isDeclared_iff.mpr (Or.inr hg.start))]
  rfl

/-! ### Shape of a splitting -/

/-- A grammar that is split by blocks is well-formed. -/
theorem wellFormed (hsplit : g.SplitBy h name) (hg : g.WellFormed) : h.WellFormed where
  disjoint s hs hmem := by
    rw [hsplit.terminals] at hs
    rcases (hsplit.nonterminals s).mp hmem with hmem | ⟨block, hblock, rfl⟩
    · exact hg.disjoint s hs hmem
    · exact (isDeclared_eq_false_iff.mp (hsplit.fresh block hblock)).1 hs
  start := by
    rw [hsplit.start, hsplit.nonterminals]
    exact Or.inl hg.start
  lhs rule hrule := by
    cases (hsplit.rules rule).mp hrule with
    | short hshort _ => exact (hsplit.nonterminals _).mpr (Or.inl (hg.lhs _ hshort))
    | definition hblock _ => exact hsplit.name_mem hg (Or.inl hblock)
    | long _ hlong =>
      have hlhs := hg.lhs _ hlong
      exact (hsplit.nonterminals _).mpr (Or.inl hlhs)
  rhs rule hrule s hs := by
    have hpair : ∀ {block : List Symbol} {x : Symbol},
        block ∈ g.parts g.blocks ∧ [x] ∈ g.parts g.blocks →
        s ∈ [name block, name [x]] → s ∈ h.terminals ∨ s ∈ h.nonterminals := by
      rintro block x ⟨hleft, hright⟩ hs
      rcases List.mem_pair.mp hs with rfl | rfl
      · exact Or.inr (hsplit.name_mem hg hleft)
      · exact Or.inr (hsplit.name_mem hg hright)
    cases (hsplit.rules rule).mp hrule with
    | short hshort _ =>
      rw [hsplit.terminals, hsplit.nonterminals]
      exact (hg.rhs rule hshort s hs).imp_right Or.inl
    | definition hblock hdefines =>
      cases hdefines with
      | wrapper x =>
        obtain rfl := List.mem_singleton.mp hs
        rw [hsplit.terminals]
        exact Or.inl (mem_terminals_of_mem_blocks hblock)
      | helper hne x => exact hpair (hg.parts_of_block hne hblock) hs
    | long hne hlong => exact hpair (hg.parts_of_rule hne hlong) hs

/-- A right side is that of a short rule, a terminal or a pair of nonterminals. -/
theorem rhs_cases (hsplit : g.SplitBy h name) (hg : g.WellFormed) (hrule : rule ∈ h.rules) :
    (rule ∈ g.rules ∧ rule.rhs.length ≤ 1) ∨ (∃ a ∈ h.terminals, rule.rhs = [a]) ∨
      ∃ b ∈ h.nonterminals, ∃ c ∈ h.nonterminals, rule.rhs = [b, c] := by
  have hpair : ∀ {block : List Symbol} {x : Symbol},
      block ∈ g.parts g.blocks ∧ [x] ∈ g.parts g.blocks →
      ∃ b ∈ h.nonterminals, ∃ c ∈ h.nonterminals, [name block, name [x]] = [b, c] :=
    fun hparts => ⟨_, hsplit.name_mem hg hparts.1, _, hsplit.name_mem hg hparts.2, rfl⟩
  cases (hsplit.rules rule).mp hrule with
  | short hshort hlength => exact Or.inl ⟨hshort, hlength⟩
  | definition hblock hdefines =>
    cases hdefines with
    | wrapper x =>
      rw [hsplit.terminals]
      exact Or.inr (Or.inl ⟨x, mem_terminals_of_mem_blocks hblock, rfl⟩)
    | helper hne x => exact Or.inr (Or.inr (hpair (hg.parts_of_block hne hblock)))
  | long hne hlong => exact Or.inr (Or.inr (hpair (hg.parts_of_rule hne hlong)))

/-- Without unit rules before, a right side is empty, a terminal or a pair of nonterminals. -/
theorem rhs_shape (hsplit : g.SplitBy h name) (hg : g.WellFormed)
    (hunit : ∀ rule ∈ g.rules, ¬g.IsUnit rule.rhs) (hrule : rule ∈ h.rules) :
    rule.rhs = [] ∨ (∃ a ∈ h.terminals, rule.rhs = [a]) ∨
      ∃ b ∈ h.nonterminals, ∃ c ∈ h.nonterminals, rule.rhs = [b, c] := by
  rcases hsplit.rhs_cases hg hrule with ⟨hshort, hlength⟩ | hshape
  · rw [hsplit.terminals]
    rcases Nat.le_one_iff_eq_zero_or_eq_one.mp hlength with hzero | hone
    · exact Or.inl (List.length_eq_zero_iff.mp hzero)
    · obtain ⟨a, ha⟩ := List.length_eq_one_iff.mp hone
      have hdeclared := hg.rhs rule hshort a (by simp [ha])
      refine Or.inr (Or.inl ⟨a, hdeclared.resolve_right fun hnonterminal => ?_, ha⟩)
      exact hunit rule hshort ⟨a, hnonterminal, ha⟩
  · exact Or.inr hshape

/-- A declared nonterminal that stands on no right side stands on none after splitting. -/
theorem not_mem_rhs (hsplit : g.SplitBy h name) (hg : g.WellFormed) (hs : s ∈ g.nonterminals)
    (hnot : ∀ rule ∈ g.rules, s ∉ rule.rhs) (hrule : rule ∈ h.rules) : s ∉ rule.rhs := by
  have hdeclared : g.isDeclared s = true := isDeclared_iff.mpr (Or.inr hs)
  -- Expanded, the right side consists of symbols of former right sides.
  intro hmem
  have hflat : s ∈ rule.rhs.flatMap (expansion g name) :=
    List.mem_flatMap.mpr ⟨s, hmem, by simp [hsplit.expansion_of_isDeclared hdeclared]⟩
  rcases hsplit.expand_rule hg hrule with ⟨_, hold⟩ | ⟨hblock, hdefines⟩
  · exact hnot _ hold hflat
  · rw [← hdefines] at hflat
    obtain ⟨rule', hrule', hmem'⟩ := mem_rhs_of_mem_blocks hblock hflat
    exact hnot rule' hrule' hmem'

/-- A grammar that is split by blocks has no other empty rules. -/
theorem onlyStartEmpty (hsplit : g.SplitBy h name) (hg : g.WellFormed)
    (hempty : g.OnlyStartEmpty) : h.OnlyStartEmpty := by
  intro rule hrule hrhs
  rw [hsplit.start]
  cases (hsplit.rules rule).mp hrule with
  | short hshort _ =>
    obtain ⟨hlhs, hnot⟩ := hempty rule hshort hrhs
    exact ⟨hlhs, fun rule' hrule' => hsplit.not_mem_rhs hg hg.start hnot hrule'⟩
  | definition _ hdefines => cases hdefines <;> cases hrhs
  | long => cases hrhs

end SplitBy

end Grammar

end Chomsky
