import Chomsky.Proofs.Copies

/-!
# Splitting of copied grammars

Two runs that split a grammar and its copy do the same at every step: they look up
or introduce corresponding wrappers and helpers. The names tried for an introduced
symbol are free in one grammar exactly if they are free in the other, whatever else
the tables have met. So each run introduces the same names, and corresponding rules
come in the same order.
-/

namespace Chomsky

namespace Binarization

variable {t u : SymbolTable} {b c b' c' : Binarization} {s w left right first : Symbol}
  {results results' symbols : List Symbol} {rule : Rule}

/-- The symbol and its translation have been handed out by the tables of the two runs. -/
structure Known (t u : SymbolTable) (b c : Binarization) (s : Symbol) : Prop where
  shares : t.Shares u s
  covers : b.table.Covers s
  covers_translate : c.table.Covers (t.translate u s)

/-- The second run works on a copy of the grammar of the first, with a memo of corresponding
wrappers and helpers. -/
structure Mirrored (t u : SymbolTable) (b c : Binarization) : Prop where
  grammar : b.grammar.CopiedTo t u c.grammar
  naming : c.memo.naming = b.memo.naming
  lastNumber : c.memo.lastNumber = b.memo.lastNumber
  wrapper : ∀ s, t.Shares u s →
    c.memo.wrapper? (t.translate u s) = (b.memo.wrapper? s).map (t.translate u)
  helper : ∀ left right, t.Shares u left → t.Shares u right →
    c.memo.helper? (t.translate u left) (t.translate u right) =
      (b.memo.helper? left right).map (t.translate u)
  shares_wrapper : ∀ s w, b.memo.wrapper? s = some w → t.Shares u w
  shares_helper : ∀ left right w, b.memo.helper? left right = some w → t.Shares u w
  covered : b.Covered
  covered' : c.Covered

/-- The runs mirror each other and hand back corresponding symbols. -/
structure MirroredWith (t u : SymbolTable) (b c : Binarization) (results results' : List Symbol) :
    Prop extends Mirrored t u b c where
  translated : results' = results.map (t.translate u)
  known : ∀ s ∈ results, Known t u b c s

/-- What is known of a symbol is known of it in larger tables. -/
theorem Known.grow (hs : Known t u b c s) (hgrows : b.table.GrowsTo b'.table)
    (hgrows' : c.table.GrowsTo c'.table) : Known t u b' c' s :=
  ⟨hs.shares, hgrows.covers hs.covers, hgrows'.covers hs.covers_translate⟩

private theorem Mirrored.with_known (hmirrored : Mirrored t u b c) (hs : Known t u b c s) :
    MirroredWith t u b c [s] [t.translate u s] :=
  { hmirrored with
    translated := rfl
    known := fun x hx => by rwa [List.mem_singleton.mp hx] }

/-- A new symbol with a single rule is copied with the grammar. -/
theorem copiedTo_introduce {rhs : List Symbol} (hcopied : b.grammar.CopiedTo t u c.grammar)
    (hnew : b.Introduces b' s rhs)
    (hnew' : c.Introduces c' (t.translate u s) (rhs.map (t.translate u))) (hs : t.Shares u s) :
    b'.grammar.CopiedTo t u c'.grammar where
  start := by
    rw [hnew.grammar, hnew'.grammar]
    exact hcopied.start
  nonterminals y := by
    simp only [hnew.mem_nonterminals, hnew'.mem_nonterminals, hcopied.nonterminals, or_and_right,
      exists_or, exists_eq_left, @eq_comm _ y]
  terminals := by
    rw [hnew.grammar, hnew'.grammar]
    exact hcopied.terminals
  fixes := by
    rw [hnew.grammar]
    exact hcopied.fixes
  rules := by
    rw [hnew.grammar, hnew'.grammar]
    show _ :: c.grammar.rules = _
    rw [hcopied.rules]
    rfl
  shares x hx := by
    rcases hx with hx | hx
    · rw [hnew.grammar] at hx
      exact hcopied.shares x (Or.inl hx)
    · rcases hnew.mem_nonterminals.mp hx with hx | rfl
      · exact hcopied.shares x (Or.inr hx)
      · exact hs

/-- A long rule is split when its symbols have been wrapped and collapsed to two. -/
theorem table_addSplit_long (b : Binarization) (lhs first second : Symbol) (rest : List Symbol) :
    (b.addSplit ⟨lhs, first :: second :: rest⟩).table =
      (((b.wrapTerminal first).2.wrapAll (second :: rest)).2.collapse (b.wrapTerminal first).1
        ((b.wrapTerminal first).2.wrapAll (second :: rest)).1).2.table := rfl

section Run

variable (hsize : t.size ≤ UInt32.size) (hsize' : u.size ≤ UInt32.size)

include hsize hsize'

/-! ### Introduced symbols -/

/-- The wrappers that two runs introduce for corresponding terminals have the same name. -/
theorem Mirrored.translate_addWrapper (hmirrored : Mirrored t u b c) (hs : Known t u b c s)
    (hgrows : (b.addWrapper s).2.table.GrowsTo t)
    (hgrows' : (c.addWrapper (t.translate u s)).2.table.GrowsTo u) :
    t.translate u (b.addWrapper s).1 = (c.addWrapper (t.translate u s)).1 ∧
      t.Shares u (b.addWrapper s).1 := by
  have hname : c.table.nameOf (t.translate u s) = b.table.nameOf s :=
    Grammar.nameOf_translate_eq hs.shares hs.covers hs.covers_translate
      ((b.introduces_addWrapper s).grows.trans hgrows)
      ((c.introduces_addWrapper _).grows.trans hgrows')
  have hsame : c.grammar.freshSymbol c.table (b.memo.naming.wrapperStem ++ b.table.nameOf s)
      b.memo.naming.startSuffix = ((c.addWrapper (t.translate u s)).1,
        (c.addWrapper (t.translate u s)).2.table) := by
    rw [← hname, ← hmirrored.naming]
    rfl
  have hgrows'' : (c.grammar.freshSymbol c.table (b.memo.naming.wrapperStem ++ b.table.nameOf s)
      b.memo.naming.startSuffix).2.GrowsTo u := by rwa [hsame]
  have hfresh := hmirrored.grammar.freshSymbol hmirrored.covered.grammar
    hmirrored.covered'.grammar hsize hsize' hgrows hgrows''
  rwa [hsame] at hfresh

/-- New wrappers of one symbol mirror each other. -/
theorem Mirrored.addWrapper (hmirrored : Mirrored t u b c) (hs : Known t u b c s)
    (hgrows : (b.addWrapper s).2.table.GrowsTo t)
    (hgrows' : (c.addWrapper (t.translate u s)).2.table.GrowsTo u) :
    MirroredWith t u (b.addWrapper s).2 (c.addWrapper (t.translate u s)).2
      [(b.addWrapper s).1] [(c.addWrapper (t.translate u s)).1] := by
  have hadvances := advances_addWrapper hmirrored.covered hs.covers
  have hadvances' := advances_addWrapper hmirrored.covered' hs.covers_translate
  obtain ⟨heq, hshares⟩ := hmirrored.translate_addWrapper hsize hsize' hs hgrows hgrows'
  have hnew := c.introduces_addWrapper (t.translate u s)
  have hresult : MirroredWith t u (b.addWrapper s).2 (c.addWrapper (t.translate u s)).2
      [(b.addWrapper s).1] [t.translate u (b.addWrapper s).1] := by
    refine Mirrored.with_known ⟨?_, hmirrored.naming, hmirrored.lastNumber, fun x hx => ?_,
      hmirrored.helper, fun x w hw => ?_, hmirrored.shares_helper, hadvances.covered,
      hadvances'.covered⟩ ⟨hshares, hadvances.results _ (List.mem_singleton_self _), ?_⟩
    · rw [← heq] at hnew
      exact copiedTo_introduce hmirrored.grammar (b.introduces_addWrapper s) hnew hshares
    · rw [wrapper?_addWrapper, wrapper?_addWrapper, ← heq]
      by_cases hsame : x = s
      · rw [if_pos hsame, hsame, if_pos rfl, Option.map_some]
      · have hne : t.translate u x ≠ t.translate u s := fun h =>
          hsame (t.injOn_translate u hx hs.shares h)
        rw [if_neg hsame, if_neg hne, hmirrored.wrapper x hx]
    · rw [wrapper?_addWrapper] at hw
      split at hw
      · rwa [← Option.some.inj hw]
      · exact hmirrored.shares_wrapper x w hw
    · rw [heq]
      exact hadvances'.results _ (List.mem_singleton_self _)
  rwa [heq] at hresult

/-- The helpers that two runs introduce for corresponding pairs have the same name. -/
theorem Mirrored.translate_addHelper (hmirrored : Mirrored t u b c)
    (hgrows : (b.addHelper left right).2.table.GrowsTo t)
    (hgrows' : (c.addHelper (t.translate u left) (t.translate u right)).2.table.GrowsTo u) :
    t.translate u (b.addHelper left right).1 =
        (c.addHelper (t.translate u left) (t.translate u right)).1 ∧
      t.Shares u (b.addHelper left right).1 ∧
      (c.addHelper (t.translate u left) (t.translate u right)).2.memo.lastNumber =
        (b.addHelper left right).2.memo.lastNumber := by
  have htaken := hmirrored.grammar.isTaken_eq hmirrored.covered.grammar hmirrored.covered'.grammar
    ((b.introduces_addHelper left right).grows.trans hgrows)
    ((c.introduces_addHelper _ _).grows.trans hgrows') hsize hsize'
  have hnumber : c.grammar.freshNumber c.table c.memo.naming.helperStem (c.memo.lastNumber + 1) =
      b.grammar.freshNumber b.table b.memo.naming.helperStem (b.memo.lastNumber + 1) := by
    rw [hmirrored.naming, hmirrored.lastNumber, Grammar.freshNumber_congr htaken]
  have hsame : c.table.intern (numberedName b.memo.naming.helperStem
      (b.grammar.freshNumber b.table b.memo.naming.helperStem (b.memo.lastNumber + 1))) =
      ((c.addHelper (t.translate u left) (t.translate u right)).1,
        (c.addHelper (t.translate u left) (t.translate u right)).2.table) := by
    rw [← hnumber, ← hmirrored.naming]
    rfl
  have hgrows'' : (c.table.intern (numberedName b.memo.naming.helperStem (b.grammar.freshNumber
      b.table b.memo.naming.helperStem (b.memo.lastNumber + 1)))).2.GrowsTo u := by rwa [hsame]
  have hfresh := SymbolTable.translate_intern hgrows hgrows'' hsize hsize'
  rw [hsame] at hfresh
  exact ⟨hfresh.1, hfresh.2, hnumber⟩

/-- New helpers of the same two symbols mirror each other. -/
theorem Mirrored.addHelper (hmirrored : Mirrored t u b c) (hleft : Known t u b c left)
    (hright : Known t u b c right) (hgrows : (b.addHelper left right).2.table.GrowsTo t)
    (hgrows' : (c.addHelper (t.translate u left) (t.translate u right)).2.table.GrowsTo u) :
    MirroredWith t u (b.addHelper left right).2
      (c.addHelper (t.translate u left) (t.translate u right)).2 [(b.addHelper left right).1]
      [(c.addHelper (t.translate u left) (t.translate u right)).1] := by
  have hadvances := advances_addHelper hmirrored.covered hleft.covers hright.covers
  have hadvances' :=
    advances_addHelper hmirrored.covered' hleft.covers_translate hright.covers_translate
  obtain ⟨heq, hshares, hnumber⟩ := hmirrored.translate_addHelper hsize hsize' hgrows hgrows'
  have hnew := c.introduces_addHelper (t.translate u left) (t.translate u right)
  have hresult : MirroredWith t u (b.addHelper left right).2
      (c.addHelper (t.translate u left) (t.translate u right)).2 [(b.addHelper left right).1]
      [t.translate u (b.addHelper left right).1] := by
    refine Mirrored.with_known ⟨?_, hmirrored.naming, hnumber, hmirrored.wrapper,
      fun l r hl hr => ?_, hmirrored.shares_wrapper, fun l r w hw => ?_, hadvances.covered,
      hadvances'.covered⟩ ⟨hshares, hadvances.results _ (List.mem_singleton_self _), ?_⟩
    · rw [← heq] at hnew
      exact copiedTo_introduce hmirrored.grammar (b.introduces_addHelper left right) hnew hshares
    · rw [helper?_addHelper, helper?_addHelper, ← heq]
      by_cases hsame : (l, r) = (left, right)
      · obtain ⟨rfl, rfl⟩ := Prod.mk.inj hsame
        rw [if_pos rfl, if_pos rfl, Option.map_some]
      · have hne :
            (t.translate u l, t.translate u r) ≠ (t.translate u left, t.translate u right) := by
          intro h
          obtain ⟨hl', hr'⟩ := Prod.mk.inj h
          exact hsame (Prod.mk.injEq .. ▸ ⟨t.injOn_translate u hl hleft.shares hl',
            t.injOn_translate u hr hright.shares hr'⟩)
        rw [if_neg hsame, if_neg hne, hmirrored.helper l r hl hr]
    · rw [helper?_addHelper] at hw
      split at hw
      · rwa [← Option.some.inj hw]
      · exact hmirrored.shares_helper l r w hw
    · rw [heq]
      exact hadvances'.results _ (List.mem_singleton_self _)
  rwa [heq] at hresult

/-! ### Steps of a run -/

/-- Wrappers of one symbol mirror each other, new or not. -/
theorem Mirrored.wrap (hmirrored : Mirrored t u b c) (hs : Known t u b c s)
    (hgrows : (b.wrap s).2.table.GrowsTo t)
    (hgrows' : (c.wrap (t.translate u s)).2.table.GrowsTo u) :
    MirroredWith t u (b.wrap s).2 (c.wrap (t.translate u s)).2 [(b.wrap s).1]
      [(c.wrap (t.translate u s)).1] := by
  have hcovers := (advances_wrap hmirrored.covered hs.covers).results
  have hcovers' := (advances_wrap hmirrored.covered' hs.covers_translate).results
  have hmemo' := hmirrored.wrapper s hs.shares
  cases hmemo : b.memo.wrapper? s with
  | none =>
    rw [hmemo, Option.map_none] at hmemo'
    simp only [Binarization.wrap, hmemo, hmemo'] at hgrows hgrows' ⊢
    exact hmirrored.addWrapper hsize hsize' hs hgrows hgrows'
  | some w =>
    rw [hmemo, Option.map_some] at hmemo'
    simp only [Binarization.wrap, hmemo, hmemo', List.forall_mem_singleton] at hcovers hcovers' ⊢
    exact hmirrored.with_known ⟨hmirrored.shares_wrapper s w hmemo, hcovers, hcovers'⟩

/-- Helpers of the same two symbols mirror each other, new or not. -/
theorem Mirrored.pair (hmirrored : Mirrored t u b c) (hleft : Known t u b c left)
    (hright : Known t u b c right) (hgrows : (b.pair left right).2.table.GrowsTo t)
    (hgrows' : (c.pair (t.translate u left) (t.translate u right)).2.table.GrowsTo u) :
    MirroredWith t u (b.pair left right).2
      (c.pair (t.translate u left) (t.translate u right)).2 [(b.pair left right).1]
      [(c.pair (t.translate u left) (t.translate u right)).1] := by
  have hcovers := (advances_pair hmirrored.covered hleft.covers hright.covers).results
  have hcovers' := (advances_pair hmirrored.covered' hleft.covers_translate
    hright.covers_translate).results
  have hmemo' := hmirrored.helper left right hleft.shares hright.shares
  cases hmemo : b.memo.helper? left right with
  | none =>
    rw [hmemo, Option.map_none] at hmemo'
    simp only [Binarization.pair, hmemo, hmemo'] at hgrows hgrows' ⊢
    exact hmirrored.addHelper hsize hsize' hleft hright hgrows hgrows'
  | some w =>
    rw [hmemo, Option.map_some] at hmemo'
    simp only [Binarization.pair, hmemo, hmemo', List.forall_mem_singleton] at hcovers hcovers' ⊢
    exact hmirrored.with_known ⟨hmirrored.shares_helper left right w hmemo, hcovers, hcovers'⟩

/-- What one symbol is replaced by on the two sides is mirrored. -/
theorem Mirrored.wrapTerminal (hmirrored : Mirrored t u b c) (hs : Known t u b c s)
    (hgrows : (b.wrapTerminal s).2.table.GrowsTo t)
    (hgrows' : (c.wrapTerminal (t.translate u s)).2.table.GrowsTo u) :
    MirroredWith t u (b.wrapTerminal s).2 (c.wrapTerminal (t.translate u s)).2
      [(b.wrapTerminal s).1] [(c.wrapTerminal (t.translate u s)).1] := by
  have hterminal := hmirrored.grammar.mem_terminals_iff hs.shares
  by_cases hs' : b.grammar.isTerminal s = true
  · have hs'' : c.grammar.isTerminal (t.translate u s) = true := hterminal.mpr hs'
    simp only [Binarization.wrapTerminal, hs', hs'', if_true] at hgrows hgrows' ⊢
    exact hmirrored.wrap hsize hsize' hs hgrows hgrows'
  · have hs'' : ¬c.grammar.isTerminal (t.translate u s) = true := fun h => hs' (hterminal.mp h)
    simp only [Binarization.wrapTerminal, if_neg hs', if_neg hs'']
    exact hmirrored.with_known hs

/-- The terminals of corresponding sequences are wrapped by corresponding symbols. -/
theorem Mirrored.wrapAll (hmirrored : Mirrored t u b c) (hsymbols : ∀ s ∈ symbols, Known t u b c s)
    (hgrows : (b.wrapAll symbols).2.table.GrowsTo t)
    (hgrows' : (c.wrapAll (symbols.map (t.translate u))).2.table.GrowsTo u) :
    MirroredWith t u (b.wrapAll symbols).2 (c.wrapAll (symbols.map (t.translate u))).2
      (b.wrapAll symbols).1 (c.wrapAll (symbols.map (t.translate u))).1 := by
  induction symbols generalizing b c with
  | nil => exact { hmirrored with translated := rfl, known := by simp [Binarization.wrapAll] }
  | cons s rest ih =>
    obtain ⟨hs, hrest⟩ := List.forall_mem_cons.mp hsymbols
    have hadvances := advances_wrapTerminal hmirrored.covered hs.covers
    have hadvances' := advances_wrapTerminal hmirrored.covered' hs.covers_translate
    have hgrown := fun x hx => (hrest x hx).grow hadvances.grows hadvances'.grows
    have hadvances₂ := advances_wrapAll hadvances.covered fun x hx => (hgrown x hx).covers
    have hadvances₂' := advances_wrapAll hadvances'.covered
      (List.forall_mem_map.mpr fun x hx => (hgrown x hx).covers_translate)
    have hfirst := hmirrored.wrapTerminal hsize hsize' hs (hadvances₂.grows.trans hgrows)
      (hadvances₂'.grows.trans hgrows')
    have hthen := ih hfirst.toMirrored hgrown hgrows hgrows'
    refine { hthen.toMirrored with translated := ?_, known := fun x hx => ?_ }
    · have hhead := List.singleton_inj.mp hfirst.translated
      simp only [Binarization.wrapAll, List.map_cons]
      rw [hhead, hthen.translated]
    · rcases List.mem_cons.mp hx with rfl | hx
      · exact (hfirst.known _ (List.mem_singleton_self _)).grow hadvances₂.grows hadvances₂'.grows
      · exact hthen.known x hx

/-- Corresponding sequences are collapsed by corresponding helpers. -/
theorem Mirrored.collapse (hmirrored : Mirrored t u b c) (hfirst : Known t u b c first)
    (hsymbols : ∀ s ∈ symbols, Known t u b c s)
    (hgrows : (b.collapse first symbols).2.table.GrowsTo t)
    (hgrows' : (c.collapse (t.translate u first)
      (symbols.map (t.translate u))).2.table.GrowsTo u) :
    MirroredWith t u (b.collapse first symbols).2
      (c.collapse (t.translate u first) (symbols.map (t.translate u))).2
      (b.collapse first symbols).1
      (c.collapse (t.translate u first) (symbols.map (t.translate u))).1 := by
  induction symbols generalizing b c first with
  | nil => exact hmirrored.with_known hfirst
  | cons second rest ih =>
    obtain ⟨hsecond, hrest⟩ := List.forall_mem_cons.mp hsymbols
    cases rest with
    | nil =>
      refine { hmirrored with translated := rfl, known := fun x hx => ?_ }
      rcases List.mem_pair.mp hx with rfl | rfl
      · exact hfirst
      · exact hsecond
    | cons third rest =>
      have hadvances := advances_pair hmirrored.covered hfirst.covers hsecond.covers
      have hadvances' := advances_pair hmirrored.covered' hfirst.covers_translate
        hsecond.covers_translate
      have hgrown := fun x hx => (hrest x hx).grow hadvances.grows hadvances'.grows
      have hadvances₂ := advances_collapse hadvances.covered
        (hadvances.results _ (List.mem_singleton_self _)) fun x hx => (hgrown x hx).covers
      have hadvances₂' := advances_collapse hadvances'.covered
        (hadvances'.results _ (List.mem_singleton_self _))
        (List.forall_mem_map.mpr fun x hx => (hgrown x hx).covers_translate)
      have hpair := hmirrored.pair hsize hsize' hfirst hsecond (hadvances₂.grows.trans hgrows)
        (hadvances₂'.grows.trans hgrows')
      have hhelper := List.singleton_inj.mp hpair.translated
      have hthen := ih hpair.toMirrored (hpair.known _ (List.mem_singleton_self _)) hgrown hgrows
      rw [← hhelper] at hthen
      exact hthen hgrows'

omit hsize hsize' in
/-- One more mirrored rule leaves the two sides mirrored. -/
theorem MirroredWith.emit (hmirrored : MirroredWith t u b c results results')
    (hlhs : Known t u b c s) :
    Mirrored t u (b.emit ⟨s, results⟩) (c.emit ⟨t.translate u s, results'⟩) := by
  rw [hmirrored.translated]
  have hcovers' : ∀ x ∈ results.map (t.translate u), c.table.Covers x :=
    List.forall_mem_map.mpr fun x hx => (hmirrored.known x hx).covers_translate
  exact
    { hmirrored.toMirrored with
      grammar := { hmirrored.grammar with
        rules := by
          show _ :: c.grammar.rules = _
          rw [hmirrored.grammar.rules]
          rfl }
      covered := hmirrored.covered.emit ⟨hlhs.covers, fun x hx => (hmirrored.known x hx).covers⟩
      covered' := hmirrored.covered'.emit ⟨hlhs.covers_translate, hcovers'⟩ }

/-- Corresponding rules are split in the same way. -/
theorem Mirrored.addSplit (hmirrored : Mirrored t u b c) (hlhs : Known t u b c rule.lhs)
    (hrhs : ∀ s ∈ rule.rhs, Known t u b c s) (hgrows : (b.addSplit rule).table.GrowsTo t)
    (hgrows' : (c.addSplit (rule.map (t.translate u))).table.GrowsTo u) :
    Mirrored t u (b.addSplit rule) (c.addSplit (rule.map (t.translate u))) := by
  have hwhole : MirroredWith t u b c rule.rhs (rule.rhs.map (t.translate u)) :=
    { hmirrored with translated := rfl, known := hrhs }
  have hshort := hwhole.emit hlhs
  obtain ⟨lhs, rhs⟩ := rule
  match rhs with
  | [] | [_] => exact hshort
  | first :: second :: rest =>
    obtain ⟨hfirst, hothers⟩ := List.forall_mem_cons.mp hrhs
    rw [table_addSplit_long] at hgrows
    rw [Rule.map, List.map_cons, List.map_cons, table_addSplit_long, ← List.map_cons] at hgrows'
    have hadvances := advances_wrapTerminal hmirrored.covered hfirst.covers
    have hadvances' := advances_wrapTerminal hmirrored.covered' hfirst.covers_translate
    have hgrown := fun x hx => (hothers x hx).grow hadvances.grows hadvances'.grows
    have hadvances₂ := advances_wrapAll hadvances.covered fun x hx => (hgrown x hx).covers
    have hadvances₂' := advances_wrapAll hadvances'.covered
      (List.forall_mem_map.mpr fun x hx => (hgrown x hx).covers_translate)
    have hadvances₃ := advances_collapse hadvances₂.covered
      (hadvances₂.grows.covers (hadvances.results _ (List.mem_singleton_self _))) hadvances₂.results
    have hadvances₃' := advances_collapse hadvances₂'.covered
      (hadvances₂'.grows.covers (hadvances'.results _ (List.mem_singleton_self _)))
      hadvances₂'.results
    have hwrapped := hmirrored.wrapTerminal hsize hsize' hfirst
      (hadvances₂.grows.trans (hadvances₃.grows.trans hgrows))
      (hadvances₂'.grows.trans (hadvances₃'.grows.trans hgrows'))
    have hwrapped₂ := hwrapped.wrapAll hsize hsize' hgrown (hadvances₃.grows.trans hgrows)
      (hadvances₃'.grows.trans hgrows')
    have hhead := List.singleton_inj.mp hwrapped.translated
    have hcollapsed := hwrapped₂.collapse hsize hsize'
      ((hwrapped.known _ (List.mem_singleton_self _)).grow hadvances₂.grows hadvances₂'.grows)
      hwrapped₂.known hgrows
    rw [← hhead, ← hwrapped₂.translated] at hcollapsed
    have hsplit := hcollapsed hgrows'
    have hgrows₄ := hadvances.grows.trans (hadvances₂.grows.trans hadvances₃.grows)
    have hgrows₄' := hadvances'.grows.trans (hadvances₂'.grows.trans hadvances₃'.grows)
    exact hsplit.emit (hlhs.grow hgrows₄ hgrows₄')

/-- Two runs that mirror each other still do so after corresponding rules. -/
theorem Mirrored.addSplits {rules : List Rule} (hmirrored : Mirrored t u b c)
    (hrules : ∀ rule ∈ rules, Known t u b c rule.lhs ∧ ∀ s ∈ rule.rhs, Known t u b c s)
    (hgrows : (b.addSplits rules).table.GrowsTo t)
    (hgrows' : (c.addSplits (rules.map (Rule.map (t.translate u)))).table.GrowsTo u) :
    Mirrored t u (b.addSplits rules) (c.addSplits (rules.map (Rule.map (t.translate u)))) := by
  induction rules generalizing b c with
  | nil => exact hmirrored
  | cons rule rest ih =>
    obtain ⟨⟨hlhs, hrhs⟩, hrest⟩ := List.forall_mem_cons.mp hrules
    have hadvances := advances_addSplit hmirrored.covered
      ⟨hlhs.covers, fun x hx => (hrhs x hx).covers⟩
    have hadvances' : c.Advances (c.addSplit (rule.map (t.translate u))) [] :=
      advances_addSplit hmirrored.covered' ⟨hlhs.covers_translate,
        List.forall_mem_map.mpr fun x hx => (hrhs x hx).covers_translate⟩
    have hgrown : ∀ rule' ∈ rest,
        Known t u (b.addSplit rule) (c.addSplit (rule.map (t.translate u))) rule'.lhs ∧
        ∀ s ∈ rule'.rhs,
          Known t u (b.addSplit rule) (c.addSplit (rule.map (t.translate u))) s := fun rule' h' =>
      ⟨(hrest rule' h').1.grow hadvances.grows hadvances'.grows,
        fun s hs => ((hrest rule' h').2 s hs).grow hadvances.grows hadvances'.grows⟩
    have hadvances₂ := advances_addSplits hadvances.covered fun rule' h' =>
      ⟨(hgrown rule' h').1.covers, fun s hs => ((hgrown rule' h').2 s hs).covers⟩
    have hadvances₂' : (c.addSplit (rule.map (t.translate u))).Advances
        ((c.addSplit (rule.map (t.translate u))).addSplits
          (rest.map (Rule.map (t.translate u)))) [] := by
      refine advances_addSplits hadvances'.covered (List.forall_mem_map.mpr fun rule' h' => ?_)
      exact ⟨(hgrown rule' h').1.covers_translate,
        List.forall_mem_map.mpr fun s hs => ((hgrown rule' h').2 s hs).covers_translate⟩
    have hfirst := hmirrored.addSplit hsize hsize' hlhs hrhs (hadvances₂.grows.trans hgrows)
      (hadvances₂'.grows.trans hgrows')
    exact ih hfirst hgrown hgrows hgrows'

end Run

end Binarization

namespace Grammar

variable {g h : Grammar} {t u t' u' : SymbolTable} {naming : Naming}

/-- Splitting takes a copy to a copy. -/
theorem CopiedTo.binarize (hcopied : g.CopiedTo t' u' h) (hg : g.WellFormed)
    (hcovered : g.CoveredBy t) (hcovered' : h.CoveredBy u)
    (hgrows : (g.binarize { naming } t).table.GrowsTo t')
    (hgrows' : (h.binarize { naming } u).table.GrowsTo u') (hsize : t'.size ≤ UInt32.size)
    (hsize' : u'.size ≤ UInt32.size) :
    (g.binarize { naming } t).grammar.CopiedTo t' u' (h.binarize { naming } u).grammar := by
  have hstart : Binarization.Mirrored t' u' ⟨{ naming }, t, g.withRules [], []⟩
      ⟨{ naming }, u, h.withRules [], []⟩ :=
    { grammar := { hcopied with rules := rfl }
      naming := rfl
      lastNumber := rfl
      wrapper := fun _ _ => rfl
      helper := fun _ _ _ _ => rfl
      shares_wrapper := fun _ _ hnone => by cases hnone
      shares_helper := fun _ _ _ hnone => by cases hnone
      covered := (tracks_start hcovered naming).covered
      covered' := (tracks_start hcovered' naming).covered }
  have hknown : ∀ rule ∈ g.rules, Binarization.Known t' u' ⟨{ naming }, t, g.withRules [], []⟩
      ⟨{ naming }, u, h.withRules [], []⟩ rule.lhs ∧ ∀ s ∈ rule.rhs, Binarization.Known t' u'
        ⟨{ naming }, t, g.withRules [], []⟩ ⟨{ naming }, u, h.withRules [], []⟩ s := by
    intro rule hrule
    have hrule' : (rule.map (t'.translate u')).CoveredBy u :=
      hcovered'.rules _ (hcopied.renamedBy.map_mem_rules hrule)
    refine ⟨⟨hcopied.shares _ (Or.inr (hg.lhs rule hrule)), (hcovered.rules rule hrule).1,
      hrule'.1⟩, fun s hs => ⟨hcopied.shares s (hg.rhs rule hrule s hs),
        (hcovered.rules rule hrule).2 s hs, hrule'.2 _ (List.mem_map_of_mem hs)⟩⟩
  have hrun := hstart.addSplits hsize hsize' hknown hgrows
  rw [← hcopied.rules] at hrun
  have hcopied' := (hrun hgrows').grammar
  refine { hcopied' with rules := ?_ }
  show List.reverse _ = List.map _ (List.reverse _)
  rw [hcopied'.rules, List.map_reverse]

end Grammar

end Chomsky
