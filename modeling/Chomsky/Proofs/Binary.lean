import Chomsky.Proofs.BinaryCoverage
import Chomsky.Proofs.BlockNames

/-!
# The run that splits rules

As long as the table stays within the numbers of symbols, the memo of a run knows
exactly the blocks met so far, and the rules are those of a splitting by these
blocks. Each operation adds the blocks that it needs and leaves the names of
earlier ones alone. After the last rule the result is a splitting of the whole
grammar.
-/

namespace Chomsky

namespace Grammar

/-- Some rules are split, and the blocks introduced for them are composed of parts. -/
structure PartlySplit (g h : Grammar) (blocks : Set (List Symbol)) (done : List Rule)
    (name : List Symbol → Symbol) : Prop extends SplitInto g h blocks done name where
  terminal : ∀ s, [s] ∈ blocks → s ∈ g.terminals
  composed_block : ∀ block ∈ blocks, Composed (g.parts blocks) block
  composed_rhs : ∀ rule ∈ done, Composed (g.parts blocks) rule.rhs

/-- A run that has split some rules: its memo knows the names of exactly the blocks that were
introduced for them. -/
structure Tracks (g : Grammar) (b : Binarization) (blocks : Set (List Symbol)) (done : List Rule)
    (name : List Symbol → Symbol) : Prop where
  covered : b.Covered
  split : g.PartlySplit b.grammar blocks done name
  wrapper : ∀ t s, b.memo.wrapper? t = some s ↔ [t] ∈ blocks ∧ name [t] = s
  helper : ∀ left right s, b.memo.helper? left right = some s ↔ NamesPair blocks name left right s

variable {g : Grammar} {b b' : Binarization} {blocks : Set (List Symbol)} {done : List Rule}
  {name : List Symbol → Symbol} {block rhs symbols : List Symbol} {s : Symbol}

private theorem parts_mono {blocks' : Set (List Symbol)} (h : blocks ⊆ blocks') :
    g.parts blocks ⊆ g.parts blocks' :=
  fun _ hpart => hpart.imp_left fun hblock => h hblock

private theorem mem_parts_union_left (h : block ∈ g.parts blocks) (new : Set (List Symbol)) :
    block ∈ g.parts (blocks ∪ new) :=
  parts_mono Set.subset_union_left h

/-- A sequence without a name is given a symbol that is not declared. -/
theorem PartlySplit.introduce (hsplit : g.PartlySplit b.grammar blocks done name)
    (hnew : b.Introduces b' s rhs) (hfresh : b.grammar.isDeclared s = false)
    (hpart : block ∉ g.parts blocks) (hterminal : ∀ x, block = [x] → x ∈ g.terminals)
    (hcomposed : Composed (g.parts blocks) block) (hdefines : Defines name block rhs) :
    g.PartlySplit b'.grammar (insert block blocks) done (Function.update name block s) ∧
      Set.EqOn name (Function.update name block s) (g.parts blocks) := by
  rw [isDeclared_eq_false_iff, hsplit.terminals, hsplit.nonterminals, not_or] at hfresh
  obtain ⟨hnotTerminal, hnotNonterminal, hname⟩ := hfresh
  have hself : Function.update name block s block = s := Function.update_self ..
  have heq : Set.EqOn name (Function.update name block s) (g.parts blocks) := by
    intro other hother
    have hne : other ≠ block := fun h => hpart (h ▸ hother)
    exact (Function.update_of_ne hne ..).symm
  have hold : ∀ other ∈ blocks, Function.update name block s other = name other :=
    fun other hother => (heq (Or.inl hother)).symm
  have hmono : g.parts blocks ⊆ g.parts (insert block blocks) :=
    parts_mono (Set.subset_insert block blocks)
  refine ⟨⟨⟨⟨fun x hx => ?_, ?_, ?_⟩, ?_, ?_, fun x => ?_, fun rule => ?_⟩, ?_, ?_, ?_⟩, heq⟩
  · have hne : [x] ≠ block := fun h => hx (hterminal x h.symm)
    rw [Function.update_of_ne hne, hsplit.letter x hx]
  · rintro other (rfl | hother)
    · rw [hself]
      exact isDeclared_eq_false_iff.mpr ⟨hnotTerminal, hnotNonterminal⟩
    · rw [hold other hother]
      exact hsplit.fresh other hother
  · rw [Set.injOn_insert fun h => hpart (Or.inl h)]
    refine ⟨hsplit.injective.congr fun other hother => heq (Or.inl hother), ?_⟩
    rintro ⟨other, hother, hclash⟩
    rw [hself, hold other hother] at hclash
    exact hname ⟨other, hother, hclash⟩
  · rw [hnew.grammar]
    exact hsplit.start
  · rw [hnew.grammar]
    exact hsplit.terminals
  · rw [hnew.mem_nonterminals, hsplit.nonterminals, or_assoc]
    refine or_congr_right ⟨?_, ?_⟩
    · rintro (⟨other, hother, hx⟩ | rfl)
      · exact ⟨other, Or.inr hother, by rw [hold other hother, hx]⟩
      · exact ⟨block, Or.inl rfl, hself⟩
    · rintro ⟨other, rfl | hother, rfl⟩
      · exact Or.inr hself
      · exact Or.inl ⟨other, hother, (hold other hother).symm⟩
  · have hdefines' := hdefines.congr hcomposed heq
    have hsubset : blocks ⊆ g.parts blocks := fun _ hblock => Or.inl hblock
    rw [splitRule_insert_iff hdefines', hself, hnew.grammar]
    show rule ∈ _ :: b.grammar.rules ↔ _
    rw [List.mem_cons, hsplit.rules]
    refine or_congr_right ⟨fun h => ?_, fun h => ?_⟩
    · exact h.congr hsubset hsplit.composed_block hsplit.composed_rhs heq
    · exact h.congr hsubset hsplit.composed_block hsplit.composed_rhs heq.symm
  · rintro x (heq | hx)
    · exact hterminal x heq.symm
    · exact hsplit.terminal x hx
  · rintro other (rfl | hother)
    · exact hcomposed.mono hmono
    · exact (hsplit.composed_block other hother).mono hmono
  · exact fun rule hrule => (hsplit.composed_rhs rule hrule).mono hmono

/-- The memo of pairs depends only on the names of the parts. -/
theorem PartlySplit.namesPair_iff {h : Grammar} (hsplit : g.PartlySplit h blocks done name)
    {name' : List Symbol → Symbol} (heq : Set.EqOn name name' (g.parts blocks))
    (left right s : Symbol) :
    NamesPair blocks name left right s ↔ NamesPair blocks name' left right s := by
  have hsubset : blocks ⊆ g.parts blocks := fun _ hblock => Or.inl hblock
  exact ⟨fun hpair => hpair.congr hsubset hsplit.composed_block heq,
    fun hpair => hpair.congr hsubset hsplit.composed_block heq.symm⟩

/-- A declared symbol is covered all along. -/
theorem Tracks.covers (hb : g.Tracks b blocks done name)
    (hs : s ∈ g.terminals ∨ s ∈ g.nonterminals) : b.table.Covers s := by
  apply hb.covered.grammar.declared
  rw [isDeclared_iff, hb.split.terminals, hb.split.nonterminals]
  exact hs.imp_right Or.inl

/-- The name of a part is covered. -/
theorem Tracks.covers_name (hb : g.Tracks b blocks done name) (hg : g.WellFormed)
    (hpart : block ∈ g.parts blocks) : b.table.Covers (name block) :=
  hb.covered.grammar.nonterminals _ (hb.split.name_mem hg hpart)

/-- A terminal without a wrapper gets one. -/
theorem Tracks.addWrapper (hb : g.Tracks b blocks done name) (hg : g.WellFormed)
    (hs : s ∈ g.terminals) (hnot : [s] ∉ blocks)
    (hsize : (b.addWrapper s).2.table.size ≤ UInt32.size) :
    ∃ name', g.Tracks (b.addWrapper s).2 (insert [s] blocks) done name' ∧
      Set.EqOn name name' (g.parts blocks) ∧ (b.addWrapper s).1 = name' [s] := by
  have hnew := b.introduces_addWrapper s
  have hfresh := hnew.fresh hb.covered.grammar hsize
  have hpart : [s] ∉ g.parts blocks := by
    rintro (hblock | ⟨a, ha, heq⟩)
    · exact hnot hblock
    · obtain rfl : s = a := by simpa using heq
      exact hg.disjoint s hs ha
  have hterminal : ∀ x, [s] = [x] → x ∈ g.terminals := by
    intro x heq
    rwa [← List.singleton_inj.mp heq]
  obtain ⟨hsplit, heq⟩ := hb.split.introduce hnew hfresh hpart hterminal
    (composed_singleton _ s) (.wrapper s)
  have hcovered := Binarization.advances_addWrapper hb.covered (hb.covers (Or.inl hs))
  refine ⟨_, ⟨hcovered.covered, hsplit, ?_, ?_⟩, heq, by rw [Function.update_self]⟩
  · intro t w
    rw [b.wrapper?_addWrapper s t]
    by_cases ht : t = s
    · subst ht
      simp
    · have hne : [t] ≠ [s] := fun h => ht (List.singleton_inj.mp h)
      simpa [ht, Function.update_of_ne hne] using hb.wrapper t w
  · intro left right w
    have hold := hb.split.namesPair_iff heq left right w
    refine (hb.helper left right w).trans (hold.trans (namesPair_insert_iff.trans ?_).symm)
    refine or_iff_left ?_
    rintro ⟨init, x, hne, heq, _⟩
    simp [List.singleton_eq_append_iff, hne] at heq

/-- The names of two parts determine the parts. -/
theorem Tracks.parts_eq (hb : g.Tracks b blocks done name) (hg : g.WellFormed) {x y : Symbol}
    {block' : List Symbol} (hne : block' ≠ []) (hknown : block' ++ [y] ∈ blocks)
    (hblock : block ∈ g.parts blocks) (hx : [x] ∈ g.parts blocks)
    (hleft : name block' = name block) (hright : name [y] = name [x]) : block' = block ∧ y = x := by
  obtain ⟨hblock', hy⟩ := hb.split.composed_block _ hknown block' y hne rfl
  have hinjective := hb.split.injOn_parts hg
  exact ⟨hinjective hblock' hblock hleft, List.singleton_inj.mp (hinjective hy hx hright)⟩

/-- Two parts that have no helper as a pair get one. -/
theorem Tracks.addHelper (hb : g.Tracks b blocks done name) (hg : g.WellFormed) {x : Symbol}
    (hne : block ≠ []) (hblock : block ∈ g.parts blocks) (hx : [x] ∈ g.parts blocks)
    (hnot : block ++ [x] ∉ blocks)
    (hsize : (b.addHelper (name block) (name [x])).2.table.size ≤ UInt32.size) :
    ∃ name', g.Tracks (b.addHelper (name block) (name [x])).2 (insert (block ++ [x]) blocks) done
        name' ∧
      Set.EqOn name name' (g.parts blocks) ∧
      (b.addHelper (name block) (name [x])).1 = name' (block ++ [x]) := by
  have hnew := b.introduces_addHelper (name block) (name [x])
  have hfresh := hnew.fresh hb.covered.grammar hsize
  have hlong : ∀ y, block ++ [x] ≠ [y] := by
    intro y heq
    simp [List.append_eq_singleton_iff, hne] at heq
  have hpart : block ++ [x] ∉ g.parts blocks := fun h => hnot (mem_blocks_of_mem_parts hne h)
  obtain ⟨hsplit, heq⟩ := hb.split.introduce hnew hfresh hpart (fun y h => absurd h (hlong y))
    (composed_concat hblock hx) (.helper hne x)
  have hcovered := Binarization.advances_addHelper hb.covered (hb.covers_name hg hblock)
    (hb.covers_name hg hx)
  refine ⟨_, ⟨hcovered.covered, hsplit, ?_, ?_⟩, heq, by rw [Function.update_self]⟩
  · intro t w
    refine (hb.wrapper t w).trans ?_
    have hne' : [t] ≠ block ++ [x] := fun h => hlong t h.symm
    simp [hne']
  · intro left right w
    have hold := hb.split.namesPair_iff heq left right w
    rw [b.helper?_addHelper, namesPair_insert_iff, ← hold]
    by_cases hpair : (left, right) = (name block, name [x])
    · rw [if_pos hpair]
      obtain ⟨rfl, rfl⟩ := Prod.mk.inj hpair
      constructor
      · rintro ⟨⟩
        exact Or.inr ⟨block, x, hne, rfl, (heq hblock).symm, (heq hx).symm, Function.update_self ..⟩
      · rintro (⟨block', y, hne', hblock', hleft, hright, _⟩ | ⟨_, _, _, _, _, _, rfl⟩)
        · obtain ⟨rfl, rfl⟩ := hb.parts_eq hg hne' hblock' hblock hx hleft hright
          exact absurd hblock' hnot
        · rw [Function.update_self]
    · rw [if_neg hpair, hb.helper]
      refine (or_iff_left ?_).symm
      rintro ⟨init, y, _, happend, hleft, hright, _⟩
      obtain ⟨rfl, hlast⟩ := List.append_inj' happend rfl
      obtain rfl := List.singleton_inj.mp hlast
      rw [← heq hblock] at hleft
      rw [← heq hx] at hright
      exact hpair (by rw [hleft, hright])

/-- After a terminal was wrapped, its wrapper is the name of its block. -/
theorem Tracks.wrap (hb : g.Tracks b blocks done name) (hg : g.WellFormed) (hs : s ∈ g.terminals)
    (hsize : (b.wrap s).2.table.size ≤ UInt32.size) :
    ∃ name', g.Tracks (b.wrap s).2 (insert [s] blocks) done name' ∧
      Set.EqOn name name' (g.parts blocks) ∧ (b.wrap s).1 = name' [s] := by
  unfold Binarization.wrap at hsize ⊢
  cases hmemo : b.memo.wrapper? s with
  | some w =>
    obtain ⟨hblock, hname⟩ := (hb.wrapper s w).mp hmemo
    rw [Set.insert_eq_of_mem hblock]
    exact ⟨name, hb, Set.eqOn_refl .., hname.symm⟩
  | none =>
    have hnot : [s] ∉ blocks := by
      intro hblock
      have hsome := (hb.wrapper s _).mpr ⟨hblock, rfl⟩
      rw [hmemo] at hsome
      cases hsome
    rw [hmemo] at hsize
    exact hb.addWrapper hg hs hnot hsize

/-- After two names were paired, their helper is the name of the block that has one symbol more. -/
theorem Tracks.pair (hb : g.Tracks b blocks done name) (hg : g.WellFormed) {x : Symbol}
    (hne : block ≠ []) (hblock : block ∈ g.parts blocks) (hx : [x] ∈ g.parts blocks)
    (hsize : (b.pair (name block) (name [x])).2.table.size ≤ UInt32.size) :
    ∃ name', g.Tracks (b.pair (name block) (name [x])).2 (insert (block ++ [x]) blocks) done name' ∧
      Set.EqOn name name' (g.parts blocks) ∧
      (b.pair (name block) (name [x])).1 = name' (block ++ [x]) := by
  unfold Binarization.pair at hsize ⊢
  cases hmemo : b.memo.helper? (name block) (name [x]) with
  | some w =>
    obtain ⟨block', y, hne', hknown, hleft, hright, hname⟩ := (hb.helper _ _ w).mp hmemo
    obtain ⟨rfl, rfl⟩ := hb.parts_eq hg hne' hknown hblock hx hleft hright
    rw [Set.insert_eq_of_mem hknown]
    exact ⟨name, hb, Set.eqOn_refl .., hname.symm⟩
  | none =>
    have hnot : block ++ [x] ∉ blocks := by
      intro hknown
      have hsome := (hb.helper _ _ _).mpr ⟨block, x, hne, hknown, rfl, rfl, rfl⟩
      rw [hmemo] at hsome
      cases hsome
    rw [hmemo] at hsize
    exact hb.addHelper hg hne hblock hx hnot hsize

/-- The blocks that the terminals of a right side give. -/
def letters (g : Grammar) (symbols : List Symbol) : Set (List Symbol) :=
  {block | ∃ s ∈ symbols, s ∈ g.terminals ∧ block = [s]}

private theorem letters_cons (g : Grammar) (s : Symbol) (rest : List Symbol) :
    g.letters (s :: rest) = g.letters [s] ∪ g.letters rest := by
  ext block
  simp [letters]

/-- A declared symbol stands for itself, or its wrapper does. -/
theorem singleton_mem_parts (hs : s ∈ g.terminals ∨ s ∈ g.nonterminals) (hmem : s ∈ symbols) :
    [s] ∈ g.parts (blocks ∪ g.letters symbols) := by
  rcases hs with hs | hs
  · exact Or.inl (Or.inr ⟨s, hmem, hs, rfl⟩)
  · exact Or.inr ⟨s, hs, rfl⟩

/-- A symbol is replaced by the name of its block, and a nonterminal by itself. -/
theorem Tracks.wrapTerminal (hb : g.Tracks b blocks done name) (hg : g.WellFormed)
    (hsize : (b.wrapTerminal s).2.table.size ≤ UInt32.size) :
    ∃ name', g.Tracks (b.wrapTerminal s).2 (blocks ∪ g.letters [s]) done name' ∧
      Set.EqOn name name' (g.parts blocks) ∧ (b.wrapTerminal s).1 = name' [s] := by
  unfold Binarization.wrapTerminal at hsize ⊢
  by_cases hterminal : s ∈ g.terminals
  · have htest : b.grammar.isTerminal s = true := by
      rw [isTerminal, hb.split.terminals]
      exact hterminal
    have hletters : blocks ∪ g.letters [s] = insert [s] blocks := by
      ext block
      simp [letters, hterminal, or_comm]
    rw [if_pos htest] at hsize ⊢
    rw [hletters]
    exact hb.wrap hg hterminal hsize
  · have htest : ¬b.grammar.isTerminal s = true := by
      rw [isTerminal, hb.split.terminals]
      exact hterminal
    have hletters : blocks ∪ g.letters [s] = blocks := by
      ext block
      simp [letters, hterminal]
    rw [if_neg htest, hletters]
    exact ⟨name, hb, Set.eqOn_refl .., (hb.split.letter s hterminal).symm⟩

/-- Along a right side, each symbol is replaced by its name. -/
theorem Tracks.wrapAll (hb : g.Tracks b blocks done name) (hg : g.WellFormed)
    (hdeclared : ∀ s ∈ symbols, s ∈ g.terminals ∨ s ∈ g.nonterminals)
    (hsize : (b.wrapAll symbols).2.table.size ≤ UInt32.size) :
    ∃ name', g.Tracks (b.wrapAll symbols).2 (blocks ∪ g.letters symbols) done name' ∧
      Set.EqOn name name' (g.parts blocks) ∧
      (b.wrapAll symbols).1 = symbols.map fun s => name' [s] := by
  induction symbols generalizing b blocks name with
  | nil =>
    have hletters : blocks ∪ g.letters [] = blocks := by simp [letters]
    rw [hletters]
    exact ⟨name, hb, Set.eqOn_refl .., rfl⟩
  | cons s rest ih =>
    have hfirst := Binarization.advances_wrapTerminal hb.covered (hb.covers (hdeclared s (by simp)))
    have hrest := Binarization.advances_wrapAll hfirst.covered fun x hx =>
      hfirst.grows.covers (hb.covers (hdeclared x (List.mem_cons_of_mem s hx)))
    obtain ⟨name₁, hb₁, heq₁, hname₁⟩ :=
      hb.wrapTerminal hg (Nat.le_trans hrest.grows.size_le hsize)
    obtain ⟨name₂, hb₂, heq₂, hname₂⟩ :=
      ih hb₁ (fun x hx => hdeclared x (List.mem_cons_of_mem s hx)) hsize
    have hmono : g.parts blocks ⊆ g.parts (blocks ∪ g.letters [s]) :=
      parts_mono Set.subset_union_left
    have hpart : [s] ∈ g.parts (blocks ∪ g.letters [s]) :=
      singleton_mem_parts (hdeclared s (by simp)) (by simp)
    rw [letters_cons, ← Set.union_assoc]
    refine ⟨name₂, hb₂, heq₁.trans (heq₂.mono hmono), ?_⟩
    rw [List.map_cons, ← heq₂ hpart, ← hname₁, ← hname₂]
    rfl

/-- The longer beginnings that grow out of a block when symbols are appended one by one. -/
def extensions (block symbols : List Symbol) : Set (List Symbol) :=
  {part | ∃ init, init ≠ [] ∧ init <+: symbols ∧ part = block ++ init}

private theorem extensions_cons (block : List Symbol) (s : Symbol) (rest : List Symbol) :
    extensions block (s :: rest) = insert (block ++ [s]) (extensions (block ++ [s]) rest) := by
  ext part
  constructor
  · rintro ⟨init, hne, hinit, rfl⟩
    obtain ⟨init', rfl, hinit'⟩ := (List.prefix_cons_iff.mp hinit).resolve_left hne
    by_cases hempty : init' = []
    · exact Or.inl (by rw [hempty])
    · exact Or.inr ⟨init', hempty, hinit', by simp⟩
  · rintro (rfl | ⟨init, _, hinit, rfl⟩)
    · exact ⟨[s], by simp, by simp, rfl⟩
    · exact ⟨s :: init, by simp, by simpa using hinit, by simp⟩

/-- Pairing from the left replaces a right side by the names of its last symbol and of all that
comes before. -/
theorem Tracks.collapse (hb : g.Tracks b blocks done name) (hg : g.WellFormed) {x : Symbol}
    (hne : block ≠ []) (hblock : block ∈ g.parts blocks)
    (hsymbols : ∀ s ∈ symbols ++ [x], [s] ∈ g.parts blocks)
    (hsize : (b.collapse (name block) ((symbols ++ [x]).map fun s => name [s])).2.table.size ≤
      UInt32.size) :
    ∃ name', g.Tracks (b.collapse (name block) ((symbols ++ [x]).map fun s => name [s])).2
        (blocks ∪ extensions block symbols) done name' ∧
      Set.EqOn name name' (g.parts blocks) ∧
      block ++ symbols ∈ g.parts (blocks ∪ extensions block symbols) ∧
      (b.collapse (name block) ((symbols ++ [x]).map fun s => name [s])).1 =
        [name' (block ++ symbols), name' [x]] := by
  induction symbols generalizing b block blocks name with
  | nil =>
    have hnone : blocks ∪ extensions block [] = blocks := by
      simp +contextual [extensions]
    rw [hnone, List.append_nil]
    exact ⟨name, hb, Set.eqOn_refl .., hblock, rfl⟩
  | cons y rest ih =>
    have hy : [y] ∈ g.parts blocks := hsymbols y (by simp)
    have hstep := Binarization.advances_pair hb.covered (hb.covers_name hg hblock)
      (hb.covers_name hg hy)
    have hunfold : b.collapse (name block) ((y :: rest ++ [x]).map fun s => name [s]) =
        (b.pair (name block) (name [y])).2.collapse (b.pair (name block) (name [y])).1
          ((rest ++ [x]).map fun s => name [s]) := by
      cases rest <;> rfl
    have hcovers : ∀ s ∈ (rest ++ [x]).map fun s => name [s],
        (b.pair (name block) (name [y])).2.table.Covers s := by
      intro s hs
      obtain ⟨z, hz, rfl⟩ := List.mem_map.mp hs
      exact hstep.grows.covers (hb.covers_name hg (hsymbols z (List.mem_cons_of_mem y hz)))
    have hrest := Binarization.advances_collapse hstep.covered
      (hstep.results _ (List.mem_singleton_self _)) hcovers
    rw [hunfold] at hsize ⊢
    obtain ⟨name₁, hb₁, heq₁, hname₁⟩ := hb.pair hg hne hblock hy
      (Nat.le_trans hrest.grows.size_le hsize)
    have hmono : g.parts blocks ⊆ g.parts (insert (block ++ [y]) blocks) :=
      parts_mono (Set.subset_insert _ _)
    have hsymbols₁ : ∀ s ∈ rest ++ [x], [s] ∈ g.parts (insert (block ++ [y]) blocks) :=
      fun s hs => hmono (hsymbols s (List.mem_cons_of_mem y hs))
    have hmap : ((rest ++ [x]).map fun s => name [s]) = (rest ++ [x]).map fun s => name₁ [s] :=
      List.map_congr_left fun s hs => heq₁ (hsymbols s (List.mem_cons_of_mem y hs))
    rw [hmap, hname₁] at hsize ⊢
    obtain ⟨name₂, hb₂, heq₂, hpart, hresult⟩ :=
      ih hb₁ (by simp) (Or.inl (Set.mem_insert _ _)) hsymbols₁ hsize
    have hblocks : insert (block ++ [y]) blocks ∪ extensions (block ++ [y]) rest =
        blocks ∪ extensions block (y :: rest) := by
      rw [extensions_cons, Set.insert_union, Set.union_insert]
    rw [hblocks] at hb₂ hpart
    rw [List.append_assoc] at hpart hresult
    exact ⟨name₂, hb₂, heq₁.trans (heq₂.mono hmono), hpart, hresult⟩

/-- A rule is emitted in place of one that is done. -/
theorem Tracks.emit {rule rule' : Rule} (hb : g.Tracks b blocks done name)
    (hcovered : rule'.CoveredBy b.table) (hcomposed : Composed (g.parts blocks) rule.rhs)
    (hrules : ∀ other, SplitRule ∅ [rule] name other ↔ other = rule') :
    g.Tracks (b.emit rule') blocks (done ++ [rule]) name where
  covered := hb.covered.emit hcovered
  split :=
    { hb.split with
      rules := fun other => by
        rw [splitRule_concat_iff, hrules, ← hb.split.rules]
        exact List.mem_cons
      composed_rhs := fun other hother => by
        rcases List.mem_append.mp hother with hother | hother
        · exact hb.split.composed_rhs other hother
        · rwa [List.mem_singleton.mp hother] }
  wrapper := hb.wrapper
  helper := hb.helper

/-- The blocks of a long rule are its terminals and what grows out of its first symbol. -/
theorem blocks_of_long_rule {lhs first x : Symbol} :
    Rule.blocks g.terminals ⟨lhs, first :: (symbols ++ [x])⟩ =
      g.letters [first] ∪ g.letters (symbols ++ [x]) ∪ extensions [first] symbols := by
  rw [← letters_cons]
  ext block
  constructor
  · rintro ⟨_, hletter | ⟨hlength, hbegins, hproper⟩⟩
    · exact Or.inl hletter
    · obtain rfl | ⟨init, rfl, hinit⟩ := List.prefix_cons_iff.mp hbegins
      · simp at hlength
      · have hne : init ≠ [] := by
          rintro rfl
          simp at hlength
        refine Or.inr ⟨init, hne, (List.prefix_concat_iff.mp hinit).resolve_left ?_, rfl⟩
        rintro rfl
        exact hproper rfl
  · rintro (hletter | ⟨init, hne, hinit, rfl⟩)
    · exact ⟨by simp, Or.inl hletter⟩
    · have hpos := List.length_pos_of_ne_nil hne
      have hle := hinit.length_le
      refine ⟨by simp, Or.inr ⟨?_, ?_, ?_⟩⟩
      · simp only [List.singleton_append, List.length_cons]
        omega
      · simpa using hinit.trans (List.prefix_append symbols [x])
      · intro heq
        have hlength := congrArg List.length heq
        simp at hlength
        omega

private theorem blocks_of_short_rule {rule : Rule} (hlength : rule.rhs.length ≤ 1) :
    rule.blocks g.terminals = ∅ := by
  refine Set.eq_empty_of_forall_notMem fun block hblock => ?_
  have hlong := hblock.1
  omega

/-- A long rule is split in three steps. -/
theorem Tracks.addSplit_long {lhs first second : Symbol} {rest : List Symbol}
    (hb : g.Tracks b blocks done name) (hg : g.WellFormed)
    (hrule : ⟨lhs, first :: second :: rest⟩ ∈ g.rules)
    (hsize : (b.addSplit ⟨lhs, first :: second :: rest⟩).table.size ≤ UInt32.size) :
    ∃ name', g.Tracks (b.addSplit ⟨lhs, first :: second :: rest⟩)
      (blocks ∪ Rule.blocks g.terminals ⟨lhs, first :: second :: rest⟩)
      (done ++ [⟨lhs, first :: second :: rest⟩]) name' := by
  have hlhs := hg.lhs _ hrule
  have hrhs := hg.rhs _ hrule
  have hdeclared : first ∈ g.terminals ∨ first ∈ g.nonterminals := hrhs first (by simp)
  have hdeclared' : ∀ s ∈ second :: rest, s ∈ g.terminals ∨ s ∈ g.nonterminals :=
    fun s hs => hrhs s (List.mem_cons_of_mem first hs)
  -- The table stays small enough at each of the steps.
  have hgrows₁ := Binarization.advances_wrapTerminal hb.covered (hb.covers hdeclared)
  have hgrows₂ := Binarization.advances_wrapAll hgrows₁.covered fun s hs =>
    hgrows₁.grows.covers (hb.covers (hdeclared' s hs))
  have hgrows₃ := Binarization.advances_collapse hgrows₂.covered
    (hgrows₂.grows.covers (hgrows₁.results _ (List.mem_singleton_self _))) hgrows₂.results
  have hsize₂ := Nat.le_trans hgrows₃.grows.size_le hsize
  have hsize₁ := Nat.le_trans hgrows₂.grows.size_le hsize₂
  obtain ⟨name₁, hb₁, heq₁, hfirst⟩ := hb.wrapTerminal hg hsize₁
  obtain ⟨name₂, hb₂, heq₂, hsymbols⟩ := hb₁.wrapAll hg hdeclared' hsize₂
  have hpart : [first] ∈ g.parts (blocks ∪ g.letters [first]) :=
    singleton_mem_parts hdeclared (by simp)
  have hparts : ∀ s ∈ second :: rest,
      [s] ∈ g.parts (blocks ∪ g.letters [first] ∪ g.letters (second :: rest)) :=
    fun s hs => singleton_mem_parts (hdeclared' s hs) hs
  have hpart₂ := mem_parts_union_left hpart (g.letters (second :: rest))
  rw [heq₂ hpart] at hfirst
  simp only [Binarization.addSplit, hfirst, hsymbols] at hsize ⊢
  obtain ⟨init, x, hconcat⟩ :=
    (List.eq_nil_or_concat' (second :: rest)).resolve_left (List.cons_ne_nil _ _)
  generalize ((b.wrapTerminal first).2.wrapAll (second :: rest)).2 = b₂ at hb₂ hsize ⊢
  rw [hconcat] at hb₂ hsize hparts hpart₂ ⊢
  have hsize₃ : (b₂.collapse (name₂ [first]) ((init ++ [x]).map fun s => name₂ [s])).2.table.size ≤
    UInt32.size := hsize
  obtain ⟨name₃, hb₃, heq₃, hblock, hresult⟩ :=
    hb₂.collapse hg (List.cons_ne_nil _ _) hpart₂ hparts hsize₃
  have hx := mem_parts_union_left (hparts x (by simp)) (extensions [first] init)
  have hblocks : blocks ∪ g.letters [first] ∪ g.letters (init ++ [x]) ∪ extensions [first] init =
      blocks ∪ Rule.blocks g.terminals ⟨lhs, first :: (init ++ [x])⟩ := by
    rw [blocks_of_long_rule, Set.union_assoc, Set.union_assoc, Set.union_assoc]
  rw [hblocks] at hb₃ hblock hx
  have hcovered : Rule.CoveredBy ⟨lhs, [name₃ ([first] ++ init), name₃ [x]]⟩
      (b₂.collapse (name₂ [first]) ((init ++ [x]).map fun s => name₂ [s])).2.table := by
    refine ⟨hb₃.covers (Or.inr hlhs), fun s hs => ?_⟩
    rcases List.mem_pair.mp hs with rfl | rfl
    · exact hb₃.covers_name hg hblock
    · exact hb₃.covers_name hg hx
  have hne : [first] ++ init ≠ [] := List.cons_ne_nil first init
  rw [hresult]
  exact ⟨name₃, hb₃.emit hcovered (composed_concat hblock hx) fun other => splitRule_long_iff hne⟩

/-- One rule is split: the blocks of the rule join those met before. -/
theorem Tracks.addSplit {rule : Rule} (hb : g.Tracks b blocks done name) (hg : g.WellFormed)
    (hrule : rule ∈ g.rules) (hsize : (b.addSplit rule).table.size ≤ UInt32.size) :
    ∃ name', g.Tracks (b.addSplit rule) (blocks ∪ rule.blocks g.terminals) (done ++ [rule])
      name' := by
  have hshort : rule.rhs.length ≤ 1 → ∃ name', g.Tracks (b.emit rule)
      (blocks ∪ rule.blocks g.terminals) (done ++ [rule]) name' := by
    intro hlength
    have hcovered : rule.CoveredBy b.table :=
      ⟨hb.covers (Or.inr (hg.lhs rule hrule)), fun s hs => hb.covers (hg.rhs rule hrule s hs)⟩
    rw [blocks_of_short_rule hlength, Set.union_empty]
    exact ⟨name, hb.emit hcovered (composed_of_length_le hlength) fun other =>
      splitRule_short_iff hlength⟩
  rcases rule with ⟨lhs, _ | ⟨first, _ | ⟨second, rest⟩⟩⟩
  · exact hshort (Nat.zero_le 1)
  · exact hshort (Nat.le_refl 1)
  · exact hb.addSplit_long hg hrule hsize

/-- Rules are split one after the other: their blocks join those met before. -/
theorem Tracks.addSplits {rules : List Rule} (hb : g.Tracks b blocks done name) (hg : g.WellFormed)
    (hrules : ∀ rule ∈ rules, rule ∈ g.rules)
    (hsize : (b.addSplits rules).table.size ≤ UInt32.size) :
    ∃ name', g.Tracks (b.addSplits rules)
      (blocks ∪ {block | ∃ rule ∈ rules, block ∈ rule.blocks g.terminals}) (done ++ rules)
      name' := by
  induction rules generalizing b blocks done name with
  | nil =>
    refine ⟨name, ?_⟩
    simpa [Binarization.addSplits] using hb
  | cons rule rest ih =>
    have hcovered : ∀ other ∈ rule :: rest, other.CoveredBy b.table := by
      intro other hother
      have hmem := hrules other hother
      exact ⟨hb.covers (Or.inr (hg.lhs other hmem)), fun s hs => hb.covers (hg.rhs other hmem s hs)⟩
    have hstep := Binarization.advances_addSplit hb.covered (hcovered rule (by simp))
    have hgrows := Binarization.advances_addSplits hstep.covered fun other hother =>
      (hcovered other (List.mem_cons_of_mem rule hother)).grow hstep.grows
    obtain ⟨name₁, hb₁⟩ := hb.addSplit hg (hrules rule (by simp))
      (Nat.le_trans hgrows.grows.size_le hsize)
    obtain ⟨name₂, hb₂⟩ :=
      ih hb₁ (fun other hother => hrules other (List.mem_cons_of_mem rule hother)) hsize
    have hblocks : {block | ∃ other ∈ rule :: rest, block ∈ other.blocks g.terminals} =
        rule.blocks g.terminals ∪ {block | ∃ other ∈ rest, block ∈ other.blocks g.terminals} := by
      ext block
      simp
    rw [hblocks, ← Set.union_assoc]
    rw [List.append_assoc] at hb₂
    exact ⟨name₂, hb₂⟩

variable {t : SymbolTable}

/-- Before the first rule there are no blocks. -/
theorem tracks_start (hcovered : g.CoveredBy t) (naming : Naming) :
    g.Tracks { memo := { naming }, table := t, grammar := g.withRules [] } ∅ []
      fun block => block.headD g.start where
  covered := hcovered.covered_start (BinaryMemo.coveredBy_new naming t)
  split :=
    { letter := by simp
      fresh := by simp
      injective := by simp
      start := rfl
      terminals := rfl
      nonterminals := by simp [withRules]
      rules := fun rule =>
        ⟨fun h => absurd h List.not_mem_nil, fun h => by cases h <;> contradiction⟩
      terminal := by simp
      composed_block := by simp
      composed_rhs := by simp }
  wrapper := by simp [BinaryMemo.wrapper?]
  helper := by simp [BinaryMemo.helper?, NamesPair]

/-- From an empty memo on, a run splits the whole grammar. -/
theorem splitBy_binarize (hg : g.WellFormed) (hcovered : g.CoveredBy t) (naming : Naming)
    (hsize : (g.binarize { naming } t).table.size ≤ UInt32.size) :
    ∃ name, g.SplitBy (g.binarize { naming } t).grammar name := by
  obtain ⟨name, hrun⟩ := (tracks_start hcovered naming).addSplits hg (fun _ hrule => hrule) hsize
  rw [Set.empty_union, List.nil_append] at hrun
  have hsplit := hrun.split.toSplitInto
  exact ⟨name, { hsplit with rules := fun rule => List.mem_reverse.trans (hsplit.rules rule) }⟩

end Grammar

end Chomsky
