import Chomsky.Proofs.ComputedStages
import Chomsky.Proofs.Renaming

/-!
# One grammar over two tables

A symbol of one table is translated into the symbol that has the same name in
another table. A grammar is copied from table to table when its start symbol, its
declared symbols and the list of its rules are translated. The transformations take
copies to copies. Rules keep their order, because most transformations look only at
the order of the rules, and because the elimination of unit rules lists symbols by
number: of the symbols that are numbered differently it meets no more than one.
-/

namespace Chomsky

/-! ### Lists under a translation -/

section Lists

variable {α β : Type} [DecidableEq α] [DecidableEq β] {f : α → β} {known : Set α} {items : List α}

/-- The first occurrences stay the first ones if the translation tells the items apart. -/
theorem eraseDups_map (hinjective : Set.InjOn f known) (hitems : ∀ a ∈ items, a ∈ known) :
    (items.map f).eraseDups = items.eraseDups.map f := by
  induction hlength : items.length using Nat.strong_induction_on generalizing items with
  | _ n ih =>
    cases items with
    | nil => rfl
    | cons a rest =>
      have ha := hitems a List.mem_cons_self
      have hrest : ∀ b ∈ rest, b ∈ known := fun b hb => hitems b (List.mem_cons_of_mem a hb)
      have hsame : ∀ b ∈ rest, (!f b == f a) = !b == a := fun b hb => by
        rw [Bool.not_inj_iff, Bool.eq_iff_iff, beq_iff_eq, beq_iff_eq,
          hinjective.eq_iff (hrest b hb) ha]
      have hkept : ∀ b ∈ rest.filter (fun b => !b == a), b ∈ known := fun b hb =>
        hrest b (List.mem_filter.mp hb).1
      have hshorter : (rest.filter fun b => !b == a).length < n := by
        have hle := List.length_filter_le (fun b => !b == a) rest
        rw [List.length_cons] at hlength
        omega
      rw [List.map_cons, List.eraseDups_cons, List.eraseDups_cons, List.filter_map, List.map_cons,
        List.filter_congr (p := (fun b => !b == f a) ∘ f) hsame, ih _ hshorter hkept rfl]

private theorem dropRepeats_map (hinjective : Set.InjOn f known) (hitems : ∀ a ∈ items, a ∈ known) :
    dropRepeats (items.map f) = (dropRepeats items).map f := by
  fun_induction dropRepeats items with
  | case1 => rfl
  | case2 a => rfl
  | case3 a rest ih =>
    have hrest := ih fun b hb => hitems b (List.mem_cons_of_mem a hb)
    rw [List.map_cons, List.map_cons, dropRepeats, if_pos rfl, ← hrest, List.map_cons]
  | case4 a b rest hne ih =>
    have hrest := ih fun c hc => hitems c (List.mem_cons_of_mem a hc)
    have hne' : f a ≠ f b := fun heq =>
      hne (hinjective (hitems a (by simp)) (hitems b (by simp)) heq)
    rw [List.map_cons, List.map_cons, dropRepeats, if_neg hne', ← List.map_cons, hrest,
      List.map_cons]

end Lists

/-- Leaving out symbols commutes with a translation that keeps the nullable ones. -/
theorem omissions_map {nullable nullable' : SymbolSet} {f : Symbol → Symbol} {form : List Symbol}
    (hnullable : ∀ s ∈ form, f s ∈ nullable' ↔ s ∈ nullable) :
    omissions nullable' (form.map f) = (omissions nullable form).map (List.map f) := by
  induction form using List.reverseRecOn with
  | nil => rfl
  | append_singleton form s ih =>
    have hrest := ih fun x hx => hnullable x (List.mem_append_left _ hx)
    have hs : nullable'.contains (f s) = nullable.contains s :=
      Bool.eq_iff_iff.mpr (hnullable s (by simp))
    have hkept : (omissions nullable' (form.map f)).map (· ++ [f s]) =
        ((omissions nullable form).map (· ++ [s])).map (List.map f) := by
      rw [hrest, List.map_map, List.map_map]
      exact List.map_congr_left fun rest _ => by simp
    rw [List.map_append, List.map_singleton, omissions_concat, omissions_concat, hs, hkept, hrest]
    split
    · rw [List.map_append]
    · rfl

private theorem variants_map {nullable nullable' : SymbolSet} {f : Symbol → Symbol}
    {form : List Symbol}
    (hnullable : ∀ s ∈ form, f s ∈ nullable' ↔ s ∈ nullable) :
    variants nullable' (form.map f) = (variants nullable form).map (List.map f) := by
  rw [variants, variants, omissions_map hnullable, List.filter_map]
  exact congrArg _ (List.filter_congr fun rest _ => by simp)

/-! ### Symbols under a translation -/

namespace SymbolTable

variable {t u t' u' : SymbolTable} {s s' x : Symbol} {name : String}

/-- The symbol that has the same name in the second table. -/
def translate (t u : SymbolTable) (s : Symbol) : Symbol := (u.find? (t.nameOf s)).getD s

/-- Both tables have a symbol with the name. -/
structure Shares (t u : SymbolTable) (s : Symbol) : Prop where
  covers : t.Covers s
  covers_translate : u.Covers (t.translate u s)
  nameOf_translate : u.nameOf (t.translate u s) = t.nameOf s

/-- Symbols with the same name are translated into each other. -/
theorem translate_eq (hs : t.Covers s) (hs' : u.Covers s') (hname : u.nameOf s' = t.nameOf s) :
    t.translate u s = s' ∧ t.Shares u s := by
  have heq : t.translate u s = s' := by rw [translate, ← hname, find?_nameOf hs', Option.getD_some]
  exact ⟨heq, hs, by rwa [heq], by rwa [heq]⟩

/-- Shared symbols are told apart after translation. -/
theorem injOn_translate (t u : SymbolTable) : Set.InjOn (t.translate u) {s | t.Shares u s} := by
  intro s hs s' hs' heq
  refine t.injOn_nameOf hs.covers hs'.covers ?_
  rw [← hs.nameOf_translate, ← hs'.nameOf_translate, heq]

/-- What both tables have from a common beginning is translated into itself. -/
theorem GrowsTo.translate_eq (hgrows : t.GrowsTo t') (hgrows' : t.GrowsTo u') (hs : t.Covers s) :
    t'.translate u' s = s ∧ t'.Shares u' s :=
  SymbolTable.translate_eq (hgrows.covers hs) (hgrows'.covers hs)
    ((hgrows'.nameOf_eq hs).trans (hgrows.nameOf_eq hs).symm)

/-- Meeting the same name gives symbols that are translated into each other. -/
theorem translate_intern (hgrows : (t.intern name).2.GrowsTo t')
    (hgrows' : (u.intern name).2.GrowsTo u') (hsize : t'.size ≤ UInt32.size)
    (hsize' : u'.size ≤ UInt32.size) :
    t'.translate u' (t.intern name).1 = (u.intern name).1 ∧ t'.Shares u' (t.intern name).1 := by
  have hname : t'.nameOf (t.intern name).1 = name := by
    rw [hgrows.nameOf_eq (t.covers_intern name)]
    exact nameOf_intern (Nat.le_trans hgrows.size_le hsize)
  have hname' : u'.nameOf (u.intern name).1 = name := by
    rw [hgrows'.nameOf_eq (u.covers_intern name)]
    exact nameOf_intern (Nat.le_trans hgrows'.size_le hsize')
  exact translate_eq (hgrows.covers (t.covers_intern name))
    (hgrows'.covers (u.covers_intern name)) (hname'.trans hname.symm)

/-- A symbol beyond the common beginning is translated into one beyond it. -/
theorem Shares.covers_iff (hs : t'.Shares u' s) (hgrows : t.GrowsTo t') (hgrows' : t.GrowsTo u') :
    t.Covers (t'.translate u' s) ↔ t.Covers s := by
  constructor
  · intro hcovers
    have hname : t'.nameOf (t'.translate u' s) = t'.nameOf s := by
      rw [hgrows.nameOf_eq hcovers, ← hgrows'.nameOf_eq hcovers, hs.nameOf_translate]
    rwa [t'.injOn_nameOf (hgrows.covers hcovers) hs.covers hname] at hcovers
  · intro hcovers
    rwa [(hgrows.translate_eq hgrows' hcovers).1]

end SymbolTable

/-- A translation keeps the order of symbols of which at most one is beyond the common
beginning. -/
theorem Ascending.translate {t t' u' : SymbolTable} {x : Symbol} {symbols : List Symbol}
    (hascending : Ascending symbols) (hgrows : t.GrowsTo t') (hgrows' : t.GrowsTo u')
    (hshares : ∀ s ∈ symbols, t'.Shares u' s) (hknown : ∀ s ∈ symbols, t.Covers s ∨ s = x) :
    Ascending (symbols.map (t'.translate u')) := by
  refine List.pairwise_map.mpr (hascending.imp_of_mem fun {a b} ha hb hlt => ?_)
  have hfixed : ∀ {s}, t.Covers s → t'.translate u' s = s := fun hs =>
    (hgrows.translate_eq hgrows' hs).1
  by_cases ha' : t.Covers a <;> by_cases hb' : t.Covers b
  · rwa [hfixed ha', hfixed hb']
  · have hbeyond : ¬t.Covers (t'.translate u' b) := fun hcovers =>
      hb' (((hshares b hb).covers_iff hgrows hgrows').mp hcovers)
    rw [hfixed ha']
    exact Nat.lt_of_lt_of_le ha' (Nat.le_of_not_lt hbeyond)
  · have hb'' : b.index < t.size := hb'
    exact absurd (Nat.lt_trans hlt hb'') ha'
  · have hsame : a = b :=
      ((hknown a ha).resolve_left ha').trans ((hknown b hb).resolve_left hb').symm
    rw [hsame] at hlt
    exact absurd hlt (Nat.lt_irrefl _)

namespace Grammar

/-! ### Copied grammars -/

/-- The second grammar is the first with each symbol translated from the first table to the second.
The list of rules is translated rule by rule. -/
structure CopiedTo (g : Grammar) (t u : SymbolTable) (h : Grammar) : Prop where
  start : t.translate u g.start = h.start
  nonterminals : ∀ y, y ∈ h.nonterminals ↔ ∃ s ∈ g.nonterminals, t.translate u s = y
  terminals : ∀ s, s ∈ h.terminals ↔ s ∈ g.terminals
  fixes : ∀ s ∈ g.terminals, t.translate u s = s
  rules : h.rules = g.rules.map (Rule.map (t.translate u))
  shares : ∀ s ∈ g.declared, t.Shares u s

variable {g h g' h' : Grammar} {t u t' u' t₀ : SymbolTable} {naming : Naming} {name : String}
  {s x : Symbol} {rule : Rule}

/-- A copy is a renamed grammar. -/
theorem CopiedTo.renamedBy (hcopied : g.CopiedTo t u h) : g.RenamedBy (t.translate u) h where
  start := hcopied.start
  nonterminals := by
    refine ⟨fun s hs => (hcopied.nonterminals _).mpr ⟨s, hs, rfl⟩, fun s hs s' hs' heq => ?_,
      fun y hy => (hcopied.nonterminals y).mp hy⟩
    exact t.injOn_translate u (hcopied.shares s (Or.inr hs)) (hcopied.shares s' (Or.inr hs')) heq
  terminals := hcopied.terminals
  fixes := hcopied.fixes
  rules rule := by rw [hcopied.rules, List.mem_map]

/-- A renaming by translation is a copy if the rules are listed in the same order. -/
theorem RenamedBy.copiedTo (hrenamed : g.RenamedBy (t.translate u) h)
    (hrules : h.rules = g.rules.map (Rule.map (t.translate u)))
    (hshares : ∀ s ∈ g.declared, t.Shares u s) : g.CopiedTo t u h where
  start := hrenamed.start
  nonterminals _ :=
    ⟨fun hy => hrenamed.nonterminals.surjOn hy, fun ⟨_, hs, heq⟩ =>
      heq ▸ hrenamed.map_mem_nonterminals hs⟩
  terminals := hrenamed.terminals
  fixes := hrenamed.fixes
  rules := hrules
  shares := hshares

/-- A grammar is a copy of itself if both tables begin with a table that covers it. -/
theorem CoveredBy.copiedTo (hcovered : g.CoveredBy t) (hgrows : t.GrowsTo t')
    (hgrows' : t.GrowsTo u') : g.CopiedTo t' u' g := by
  have hfixed : ∀ {s}, t.Covers s → t'.translate u' s = s := fun hs =>
    (hgrows.translate_eq hgrows' hs).1
  refine ⟨hfixed hcovered.start, fun y => ?_, fun _ => Iff.rfl,
    fun s hs => hfixed (hcovered.terminals s hs), ?_, fun s hs => ?_⟩
  · constructor
    · exact fun hy => ⟨y, hy, hfixed (hcovered.nonterminals y hy)⟩
    · rintro ⟨s, hs, rfl⟩
      rwa [hfixed (hcovered.nonterminals s hs)]
  · refine ((List.map_congr_left fun rule hrule => ?_).trans (List.map_id _)).symm
    obtain ⟨hlhs, hrhs⟩ := hcovered.rules rule hrule
    rw [Rule.map, hfixed hlhs, List.map_congr_left fun s hs => hfixed (hrhs s hs), List.map_id']
    rfl
  · refine (hgrows.translate_eq hgrows' ?_).2
    exact hs.elim (hcovered.terminals s) (hcovered.nonterminals s)

/-- The symbols of a rule are told apart. -/
theorem CopiedTo.injOn_rules (hcopied : g.CopiedTo t u h) :
    Set.InjOn (Rule.map (t.translate u))
      {rule | rule.lhs ∈ g.declared ∧ ∀ s ∈ rule.rhs, s ∈ g.declared} :=
  Rule.map_injOn ((t.injOn_translate u).mono hcopied.shares)

/-- A symbol is translated into a terminal only if it is one. -/
theorem CopiedTo.mem_terminals_iff (hcopied : g.CopiedTo t u h) (hs : t.Shares u s) :
    t.translate u s ∈ h.terminals ↔ s ∈ g.terminals := by
  rw [hcopied.terminals]
  constructor
  · intro hterminal
    have hfixed := hcopied.fixes _ hterminal
    rwa [t.injOn_translate u (hcopied.shares _ (Or.inl hterminal)) hs hfixed] at hterminal
  · intro hterminal
    rwa [hcopied.fixes s hterminal]

/-! ### Names under a translation -/

section Taken

variable (hcopied : g.CopiedTo t' u' h) (hcovered : g.CoveredBy t) (hcovered' : h.CoveredBy u)
  (hgrows : t.GrowsTo t') (hgrows' : u.GrowsTo u')

/-- A translated symbol keeps its name. -/
theorem nameOf_translate_eq (hs : t'.Shares u' s) (hcovers : t.Covers s)
    (hcovers' : u.Covers (t'.translate u' s)) (hgrows : t.GrowsTo t') (hgrows' : u.GrowsTo u') :
    u.nameOf (t'.translate u' s) = t.nameOf s := by
  rw [← hgrows'.nameOf_eq hcovers', hs.nameOf_translate, hgrows.nameOf_eq hcovers]

include hcopied hcovered hcovered' hgrows hgrows'

/-- A grammar and its copy have the same names taken. -/
theorem CopiedTo.isTaken_eq (hsize : t'.size ≤ UInt32.size) (hsize' : u'.size ≤ UInt32.size)
    (name : String) : g.isTaken t name = h.isTaken u name := by
  have hname : ∀ s ∈ g.declared, t'.translate u' s ∈ h.declared ∧
      u.nameOf (t'.translate u' s) = t.nameOf s := by
    intro s hs
    have hs' : t'.translate u' s ∈ h.declared :=
      hs.imp (hcopied.mem_terminals_iff (hcopied.shares s hs)).mpr
        hcopied.renamedBy.map_mem_nonterminals
    refine ⟨hs', nameOf_translate_eq (hcopied.shares s hs) ?_ ?_ hgrows hgrows'⟩
    · exact hs.elim (hcovered.terminals s) (hcovered.nonterminals s)
    · exact hs'.elim (hcovered'.terminals _) (hcovered'.nonterminals _)
  rw [Bool.eq_iff_iff, isTaken_iff hcovered (Nat.le_trans hgrows.size_le hsize),
    isTaken_iff hcovered' (Nat.le_trans hgrows'.size_le hsize')]
  simp only [isDeclared_iff]
  constructor
  · rintro ⟨s, hs, rfl⟩
    exact ⟨_, hname s hs⟩
  · rintro ⟨y, hy, rfl⟩
    have hsource : ∃ s ∈ g.declared, t'.translate u' s = y := by
      rcases hy with hy | hy
      · have hterminal := (hcopied.terminals y).mp hy
        exact ⟨y, Or.inl hterminal, hcopied.fixes y hterminal⟩
      · obtain ⟨s, hs, heq⟩ := (hcopied.nonterminals y).mp hy
        exact ⟨s, Or.inr hs, heq⟩
    obtain ⟨s, hs, rfl⟩ := hsource
    exact ⟨s, hs, (hname s hs).2.symm⟩

end Taken

section Fresh

variable (hcopied : g.CopiedTo t' u' h) (hcovered : g.CoveredBy t) (hcovered' : h.CoveredBy u)
  (hsize : t'.size ≤ UInt32.size) (hsize' : u'.size ≤ UInt32.size)

include hcopied hcovered hcovered' hsize hsize'

/-- The fresh symbols for one name are translated into each other. -/
theorem CopiedTo.freshSymbol {suffix : String}
    (hgrows : (g.freshSymbol t name suffix).2.GrowsTo t')
    (hgrows' : (h.freshSymbol u name suffix).2.GrowsTo u') :
    t'.translate u' (g.freshSymbol t name suffix).1 = (h.freshSymbol u name suffix).1 ∧
      t'.Shares u' (g.freshSymbol t name suffix).1 := by
  have hname := freshName_congr (hcopied.isTaken_eq hcovered hcovered'
    ((t.growsTo_intern _).trans hgrows) ((u.growsTo_intern _).trans hgrows') hsize hsize')
    name suffix
  rw [Grammar.freshSymbol, ← hname] at hgrows'
  rw [Grammar.freshSymbol, Grammar.freshSymbol, ← hname]
  exact SymbolTable.translate_intern hgrows hgrows' hsize hsize'

/-- The new start symbols are translated into each other. -/
theorem CopiedTo.newStart (hgrows : (g.newStart t naming).2.GrowsTo t')
    (hgrows' : (h.newStart u naming).2.GrowsTo u') (hg : g.WellFormed) :
    t'.translate u' (g.newStart t naming).1 = (h.newStart u naming).1 ∧
      t'.Shares u' (g.newStart t naming).1 := by
  have hname : h.newStartName u naming = g.newStartName t naming := by
    have hcovers := hcovered'.start
    rw [newStartName, newStartName, ← hcopied.start]
    rw [← hcopied.start] at hcovers
    rw [nameOf_translate_eq (hcopied.shares _ (Or.inr hg.start)) hcovered.start hcovers
      ((t.growsTo_intern _).trans hgrows) ((u.growsTo_intern _).trans hgrows')]
  rw [Grammar.newStart, hname] at hgrows'
  rw [Grammar.newStart, Grammar.newStart, hname]
  exact hcopied.freshSymbol hcovered hcovered' hsize hsize' hgrows hgrows'

end Fresh

/-! ### Transformations of copies -/

section Transformations

variable (hcopied : g.CopiedTo t u h) (hg : g.WellFormed) (hh : h.WellFormed)

include hcopied hg hh

/-- Copies stay copies when unproductive symbols are removed. -/
theorem CopiedTo.removeUnproductive :
    g.removeUnproductive.CopiedTo t u h.removeUnproductive := by
  have hrenamed := hcopied.renamedBy
  have hproductive : ∀ s ∈ g.declared,
      h.productiveSymbols.contains (t.translate u s) = g.productiveSymbols.contains s := by
    intro s hs
    rw [Bool.eq_iff_iff, ← SymbolSet.mem_iff, ← SymbolSet.mem_iff, mem_productiveSymbols_iff,
      mem_productiveSymbols_iff, hrenamed.wordsOf_eq hh hg hs]
  refine (hrenamed.removeUnproductive hh hg).copiedTo ?_ fun s hs => ?_
  · rw [Grammar.removeUnproductive, Grammar.removeUnproductive, hcopied.rules, List.filter_map]
    refine congrArg _ (List.filter_congr fun rule hrule => ?_)
    have hrhs : (rule.rhs.map (t.translate u)).all h.productiveSymbols.contains =
        rule.rhs.all g.productiveSymbols.contains := by
      rw [List.all_map, Bool.eq_iff_iff, List.all_eq_true, List.all_eq_true]
      refine forall₂_congr fun s hs => ?_
      rw [Function.comp_apply, hproductive s (hg.rhs rule hrule s hs)]
    rw [Function.comp_apply, mentionsOnly, mentionsOnly, Rule.map,
      hproductive _ (Or.inr (hg.lhs rule hrule)), hrhs]
  · refine hcopied.shares s (hs.imp_right fun hs => ?_)
    rcases mem_nonterminals_removeUnproductive.mp hs with rfl | ⟨hs, _⟩
    · exact hg.start
    · exact hs

/-- Both reachable parts keep the rules for the same left sides. -/
theorem CopiedTo.removeUnreachable (hcovered : g.CoveredBy t₀) (hcovered' : h.CoveredBy u')
    (hpart : g.removeUnreachable t₀.size = .ok g') (hpart' : h.removeUnreachable u'.size = .ok h') :
    g'.CopiedTo t u h' := by
  have hrenamed := hcopied.renamedBy
  have hreachable := reachablePart_of_removeUnreachable hcovered hpart
  refine (hrenamed.reachablePart hh hg hreachable
    (reachablePart_of_removeUnreachable hcovered' hpart')).copiedTo ?_ fun s hs => ?_
  · obtain ⟨set, hset, rfl⟩ := restrictTo_of_removeUnreachable hcovered hpart
    obtain ⟨set', hset', rfl⟩ := restrictTo_of_removeUnreachable hcovered' hpart'
    rw [restrictTo, restrictTo, hcopied.rules, List.filter_map]
    refine congrArg _ (List.filter_congr fun rule hrule => ?_)
    rw [Function.comp_apply, Bool.eq_iff_iff, ← SymbolSet.mem_iff, ← SymbolSet.mem_iff, hset, hset']
    exact hrenamed.reaches_iff hh hg (Or.inr (hg.lhs rule hrule))
  · exact hcopied.shares s (hs.imp (fun hs => ((hreachable.terminals s).mp hs).1)
      fun hs => ((hreachable.nonterminals s).mp hs).1)

/-- Both expansions leave out nullable symbols in the same order. -/
theorem CopiedTo.expandNullable : g.expandNullable.CopiedTo t u h.expandNullable := by
  have hrenamed := hcopied.renamedBy
  refine (hrenamed.expandNullable hh hg).copiedTo ?_ hcopied.shares
  have hvariants : ∀ rule ∈ g.rules, (variants h.nullableSymbols (rule.map (t.translate u)).rhs).map
      (Rule.mk (rule.map (t.translate u)).lhs) =
      ((variants g.nullableSymbols rule.rhs).map (Rule.mk rule.lhs)).map
        (Rule.map (t.translate u)) := by
    intro rule hrule
    have hnullable := fun s hs =>
      hrenamed.mem_nullableSymbols_map_iff hh hg (hg.rhs rule hrule s hs)
    rw [Rule.map, variants_map hnullable, List.map_map, List.map_map]
    rfl
  have hmem := hg.expandNullable
  simp only [Grammar.expandNullable, expandedRules, withRules, distinctRules_eq_eraseDups] at hmem ⊢
  rw [← eraseDups_map hcopied.injOn_rules, hcopied.rules, List.filter_map, List.map_flatMap,
    List.flatMap_map]
  · refine congrArg List.eraseDups ?_
    have hproper : ((fun rule : Rule => !rule.isEpsilon) ∘ Rule.map (t.translate u)) =
        fun rule => !rule.isEpsilon := by
      funext rule
      simp [Rule.isEpsilon, Rule.map]
    rw [hproper]
    exact List.flatMap_congr fun rule hrule => hvariants rule (List.mem_filter.mp hrule).1
  · intro rule hrule
    have hrule' := List.mem_eraseDups.mpr hrule
    exact ⟨Or.inr (hmem.lhs rule hrule'), hmem.rhs rule hrule'⟩

end Transformations

/-- Copies stay copies with new start symbols of one name. -/
theorem CopiedTo.prependStart (hcopied : g.CopiedTo t u h) (hx : t.Shares u x) :
    (g.prependStart x).CopiedTo t u (h.prependStart (t.translate u x)) where
  start := rfl
  nonterminals y := by
    simp only [mem_nonterminals_prependStart, hcopied.nonterminals, or_and_right, exists_or,
      exists_eq_left, @eq_comm _ y]
  terminals := hcopied.terminals
  fixes := hcopied.fixes
  rules := by
    simp only [Grammar.prependStart, addRule, setStart, addNonterminal, hcopied.rules,
      List.map_append, List.map_cons, List.map_nil, Rule.map, hcopied.start]
  shares s hs := by
    rcases hs with hs | hs
    · exact hcopied.shares s (Or.inl hs)
    · rcases mem_nonterminals_prependStart.mp hs with rfl | hs
      · exact hx
      · exact hcopied.shares s (Or.inr hs)

/-- Both eliminations of epsilon rules introduce a start symbol with the same name, or none. -/
theorem CopiedTo.eliminateEpsilon (hcopied : g.CopiedTo t' u' h) (hg : g.WellFormed)
    (hh : h.WellFormed) (hcovered : g.CoveredBy t) (hcovered' : h.CoveredBy u)
    (hgrows : (g.eliminateEpsilon t naming).2.GrowsTo t')
    (hgrows' : (h.eliminateEpsilon u naming).2.GrowsTo u') (hsize : t'.size ≤ UInt32.size)
    (hsize' : u'.size ≤ UInt32.size) :
    (g.eliminateEpsilon t naming).1.CopiedTo t' u' (h.eliminateEpsilon u naming).1 := by
  have hwell : (g.expandEpsilon t naming).1.WellFormed :=
    hg.expandEpsilon hcovered (Nat.le_trans hgrows.size_le hsize)
  have hwell' : (h.expandEpsilon u naming).1.WellFormed :=
    hh.expandEpsilon hcovered' (Nat.le_trans hgrows'.size_le hsize')
  have hexpanded := hcopied.expandNullable hg hh
  have hnullable := hcopied.renamedBy.mem_nullableSymbols_map_iff hh hg (Or.inr hg.start)
  rw [hcopied.start] at hnullable
  have hsuffices : (g.expandEpsilon t naming).1.CopiedTo t' u' (h.expandEpsilon u naming).1 →
      (g.eliminateEpsilon t naming).1.CopiedTo t' u' (h.eliminateEpsilon u naming).1 :=
    fun hexpanded => hexpanded.removeUnproductive hwell hwell'
  refine hsuffices ?_
  by_cases hstart : g.start ∈ g.nullableSymbols
  · have hstart' := hnullable.mpr hstart
    rw [Grammar.eliminateEpsilon, expandEpsilon_of_nullable hstart] at hgrows
    rw [Grammar.eliminateEpsilon, expandEpsilon_of_nullable hstart'] at hgrows'
    obtain ⟨heq, hshares⟩ :=
      hcopied.newStart hcovered hcovered' hsize hsize' hgrows hgrows' hg
    rw [expandEpsilon_of_nullable hstart, expandEpsilon_of_nullable hstart', ← heq]
    exact hexpanded.prependStart hshares
  · have hstart' : h.start ∉ h.nullableSymbols := fun hmem => hstart (hnullable.mp hmem)
    rw [expandEpsilon_of_not_nullable hstart, expandEpsilon_of_not_nullable hstart']
    exact hexpanded

/-! ### Elimination of unit rules -/

section Units

variable (hcopied : g.CopiedTo t' u' h) (hg : g.WellFormed) (hh : h.WellFormed)

include hcopied hg hh

/-- The proper rules of a symbol are copied in their order. -/
theorem CopiedTo.properRulesOf (hs : s ∈ g.declared) :
    h.properRulesOf (t'.translate u' s) =
      (g.properRulesOf s).map (Rule.map (t'.translate u')) := by
  rw [Grammar.properRulesOf, Grammar.properRulesOf, hcopied.rules, List.filter_map]
  refine congrArg _ (List.filter_congr fun rule hrule => ?_)
  have hlhs : t'.translate u' rule.lhs = t'.translate u' s ↔ rule.lhs = s :=
    (t'.injOn_translate u').eq_iff (hcopied.shares _ (Or.inr (hg.lhs rule hrule)))
      (hcopied.shares s hs)
  have hunit : h.isUnitRule (rule.map (t'.translate u')) = g.isUnitRule rule := by
    rw [Bool.eq_iff_iff, isUnitRule_iff, isUnitRule_iff]
    exact hcopied.renamedBy.isUnit_map_iff hh (hg.rhs rule hrule)
  rw [Function.comp_apply, hunit]
  simp only [Rule.map, hlhs]

/-- What a nonterminal takes over from listed symbols comes in the same order. -/
theorem CopiedTo.inheritedRules {lhs : Symbol} {derived : List Symbol} (hlhs : lhs ∈ g.declared)
    (hderived : ∀ s ∈ derived, s ∈ g.declared) :
    h.inheritedRules (t'.translate u' lhs) (derived.map (t'.translate u')) =
      (g.inheritedRules lhs derived).map (Rule.map (t'.translate u')) := by
  simp only [Grammar.inheritedRules, distinctRules_eq_eraseDups]
  rw [← eraseDups_map hcopied.injOn_rules, List.flatMap_map,
    List.flatMap_congr fun s hs => hcopied.properRulesOf hg hh (hderived s hs), ← List.map_flatMap,
    List.map_map, List.map_map]
  · rfl
  · intro rule hrule
    obtain ⟨rule', hrule', rfl⟩ := List.mem_map.mp hrule
    obtain ⟨s, _, hproper⟩ := List.mem_flatMap.mp hrule'
    exact ⟨hlhs, hg.rhs rule' (mem_properRulesOf_iff.mp hproper).1⟩

/-- Both eliminations of unit rules list nonterminals in the same order, if all but one of them are
known to a table with which both tables begin. -/
theorem CopiedTo.eliminateUnits (hcovered : g.CoveredBy t) (hcovered' : h.CoveredBy u)
    (hsize : t.size ≤ UInt32.size) (hsize' : u.size ≤ UInt32.size) (hgrows : t₀.GrowsTo t')
    (hgrows' : t₀.GrowsTo u') (hknown : ∀ s ∈ g.nonterminals, t₀.Covers s ∨ s = x)
    (hform : g.eliminateUnits t.size = .ok g') (hform' : h.eliminateUnits u.size = .ok h') :
    g'.CopiedTo t' u' h' := by
  have hrenamed := hcopied.renamedBy
  have hunitFree := unitFreeForm_of_eliminateUnits hcovered hform
  have hunitFree' := unitFreeForm_of_eliminateUnits hcovered' hform'
  obtain ⟨derived, hlists, hrules⟩ := rules_of_eliminateUnits hcovered hsize hform
  obtain ⟨derived', hlists', hrules'⟩ := rules_of_eliminateUnits hcovered' hsize' hform'
  have hlisted : h.nonterminals.toList = g.nonterminals.toList.map (t'.translate u') := by
    refine h.nonterminals.ascending_toList.eq_of_mem_iff
      (g.nonterminals.ascending_toList.translate (x := x) hgrows hgrows' ?_ ?_) fun y => ?_
    · exact fun s hs => hcopied.shares s (Or.inr (SymbolSet.mem_toList.mp hs))
    · exact fun s hs => hknown s (SymbolSet.mem_toList.mp hs)
    · rw [SymbolSet.mem_toList, ← SymbolSet.mem_iff, hcopied.nonterminals]
      simp only [List.mem_map, SymbolSet.mem_toList, SymbolSet.mem_iff]
  have hderives : ∀ lhs ∈ g.nonterminals, ∀ s ∈ derived lhs, s ∈ g.nonterminals := by
    intro lhs hlhs s hs
    have hchain := (hlists.mem_iff lhs (hcovered.nonterminals lhs hlhs) s).mp hs
    rcases Relation.ReflTransGen.cases_tail hchain with rfl | ⟨_, _, _, hmem⟩
    · exact hlhs
    · exact hmem
  have hderived : ∀ lhs ∈ g.nonterminals,
      derived' (t'.translate u' lhs) = (derived lhs).map (t'.translate u') := by
    intro lhs hlhs
    have hcovers := hcovered.nonterminals lhs hlhs
    have hcovers' := hcovered'.nonterminals _ (hrenamed.map_mem_nonterminals hlhs)
    refine (hlists'.ascending _ hcovers').eq_of_mem_iff
      ((hlists.ascending lhs hcovers).translate (x := x) hgrows hgrows' ?_ ?_) fun y => ?_
    · exact fun s hs => hcopied.shares s (Or.inr (hderives lhs hlhs s hs))
    · exact fun s hs => hknown s (hderives lhs hlhs s hs)
    · rw [hlists'.mem_iff _ hcovers', hrenamed.unitChain_map_iff hh hg (Or.inr hlhs), List.mem_map]
      constructor
      · rintro ⟨b, _, hchain, heq⟩
        exact ⟨b, (hlists.mem_iff lhs hcovers b).mpr hchain, heq⟩
      · rintro ⟨b, hb, heq⟩
        exact ⟨b, Or.inr (hderives lhs hlhs b hb), (hlists.mem_iff lhs hcovers b).mp hb, heq⟩
  refine (hrenamed.unitFreeForm hh hg hunitFree hunitFree').copiedTo ?_ fun s hs => ?_
  · rw [hrules, hrules', hlisted, List.flatMap_map, List.map_flatMap]
    refine List.flatMap_congr fun lhs hlhs => ?_
    have hlhs' : lhs ∈ g.nonterminals := SymbolSet.mem_toList.mp hlhs
    rw [hderived lhs hlhs', hcopied.inheritedRules hg hh (Or.inr hlhs') fun s hs =>
      Or.inr (hderives lhs hlhs' s hs)]
  · refine hcopied.shares s ?_
    rwa [declared, hunitFree.terminals, hunitFree.nonterminals] at hs

end Units

/-! ### Sorting -/

/-- A copied rule has the same names. -/
theorem CopiedTo.named_map (hcopied : g.CopiedTo t u h) (hg : g.WellFormed)
    (hrule : rule ∈ g.rules) :
    (rule.map (t.translate u)).named u = rule.named t := by
  have hrhs : ∀ s ∈ rule.rhs, u.nameOf (t.translate u s) = t.nameOf s := fun s hs =>
    (hcopied.shares s (hg.rhs rule hrule s hs)).nameOf_translate
  rw [Rule.named, Rule.named, Rule.map,
    (hcopied.shares _ (Or.inr (hg.lhs rule hrule))).nameOf_translate, List.map_map,
    List.map_congr_left (f := u.nameOf ∘ t.translate u) hrhs]

/-- Sorting by name and dropping repetitions do the same to a copy. -/
theorem CopiedTo.sort_dedup (hcopied : g.CopiedTo t u h) (hg : g.WellFormed) :
    (g.sort t).dedup.CopiedTo t u (h.sort u).dedup := by
  refine { hcopied with rules := ?_ }
  have hsorted : h.rules.mergeSort (Rule.leByName u) =
      (g.rules.mergeSort (Rule.leByName t)).map (Rule.map (t.translate u)) := by
    rw [hcopied.rules]
    refine (List.map_mergeSort fun a ha b hb => ?_).symm
    rw [Rule.leByName, Rule.leByName, hcopied.named_map hg ha, hcopied.named_map hg hb]
  show dropRepeats (h.rules.mergeSort (Rule.leByName u)) = _
  rw [hsorted, dropRepeats_map hcopied.injOn_rules]
  · rfl
  · intro rule hrule
    have hrule' := List.mem_mergeSort.mp hrule
    exact ⟨Or.inr (hg.lhs rule hrule'), hg.rhs rule hrule'⟩

end Grammar

end Chomsky
