import Chomsky.Proofs.Splitting
import Mathlib.Data.Set.Function

/-!
# Renaming of nonterminals

Two grammars are the same up to renaming when a function takes the nonterminals of
the first one to one to those of the second, the start symbol to the start symbol
and the rules onto the rules, and leaves the terminals alone. Rules are compared
as sets, so their order and repetitions do not matter. Symbols keep their words
under a renaming, and each transformation takes renamed grammars to renamed
grammars. Where a transformation introduces symbols, the renaming is extended to
them.
-/

namespace Chomsky

/-- The rule with its symbols renamed. -/
def Rule.map (f : Symbol → Symbol) (rule : Rule) : Rule := ⟨f rule.lhs, rule.rhs.map f⟩

/-- Two forms with equal images are equal, if the renaming tells their symbols apart. -/
theorem map_injOn {f : Symbol → Symbol} {known : Set Symbol} (hinjective : Set.InjOn f known)
    {u v : List Symbol} (hu : ∀ s ∈ u, s ∈ known) (hv : ∀ s ∈ v, s ∈ known)
    (heq : u.map f = v.map f) : u = v := by
  induction u generalizing v with
  | nil => exact (List.map_eq_nil_iff.mp heq.symm).symm
  | cons s u ih =>
    obtain ⟨s', v, rfl, hs, hrest⟩ := List.map_eq_cons_iff.mp heq.symm
    have hhead : s = s' := hinjective (hu s (by simp)) (hv s' (by simp)) hs.symm
    have htail : u = v := ih (fun x hx => hu x (List.mem_cons_of_mem s hx))
      (fun x hx => hv x (List.mem_cons_of_mem s' hx)) hrest.symm
    rw [hhead, htail]

/-- Two rules with equal images are equal, if the renaming tells their symbols apart. -/
theorem Rule.map_injOn {f : Symbol → Symbol} {known : Set Symbol} (hinjective : Set.InjOn f known) :
    Set.InjOn (Rule.map f) {rule | rule.lhs ∈ known ∧ ∀ s ∈ rule.rhs, s ∈ known} := by
  rintro ⟨lhs, rhs⟩ ⟨hlhs, hrhs⟩ ⟨lhs', rhs'⟩ ⟨hlhs', hrhs'⟩ heq
  obtain ⟨hleft, hright⟩ := Rule.mk.inj heq
  rw [Rule.mk.injEq]
  exact ⟨hinjective hlhs hlhs' hleft, Chomsky.map_injOn hinjective hrhs hrhs' hright⟩

/-- A reading of a renamed form is a reading of the form. -/
theorem formWords_map (words : Symbol → Set (List Symbol)) (f : Symbol → Symbol)
    (form : List Symbol) :
    formWords words (form.map f) = formWords (fun s => words (f s)) form := by
  induction form with
  | nil => rfl
  | cons s form ih => rw [List.map_cons, formWords, formWords, ih]

/-- Chains of steps are renamed step by step, within a set that steps do not leave. -/
theorem reflTransGen_map_iff {r r' : Symbol → Symbol → Prop} {f : Symbol → Symbol}
    {known : Set Symbol} (hforth : ∀ a ∈ known, ∀ b, r a b → b ∈ known ∧ r' (f a) (f b))
    (hback : ∀ a ∈ known, ∀ y, r' (f a) y → ∃ b, r a b ∧ f b = y) {a y : Symbol} (ha : a ∈ known) :
    Relation.ReflTransGen r' (f a) y ↔ ∃ b ∈ known, Relation.ReflTransGen r a b ∧ f b = y := by
  constructor
  · intro h
    induction h with
    | refl => exact ⟨a, ha, Relation.ReflTransGen.refl, rfl⟩
    | tail _ hstep ih =>
      obtain ⟨b, hb, hchain, rfl⟩ := ih
      obtain ⟨c, hc, rfl⟩ := hback b hb _ hstep
      exact ⟨c, (hforth b hb c hc).1, hchain.tail hc, rfl⟩
  · rintro ⟨b, -, hchain, rfl⟩
    have hboth : b ∈ known ∧ Relation.ReflTransGen r' (f a) (f b) := by
      induction hchain with
      | refl => exact ⟨ha, Relation.ReflTransGen.refl⟩
      | tail _ hstep ih =>
        obtain ⟨hc, hstep'⟩ := hforth _ ih.1 _ hstep
        exact ⟨hc, ih.2.tail hstep'⟩
    exact hboth.2

/-- What can be left out of a renamed form is what can be left out of the form. -/
theorem omits_map_iff {nullable nullable' : SymbolSet} {f : Symbol → Symbol}
    {form rest : List Symbol} (hnullable : ∀ s ∈ form, f s ∈ nullable' ↔ s ∈ nullable) :
    Omits nullable' (form.map f) rest ↔
      ∃ rest', Omits nullable form rest' ∧ rest'.map f = rest := by
  induction form generalizing rest with
  | nil =>
    constructor
    · rintro ⟨⟩
      exact ⟨[], .nil, rfl⟩
    · rintro ⟨_, ⟨⟩, rfl⟩
      exact .nil
  | cons s form ih =>
    have hrest : ∀ {rest}, Omits nullable' (form.map f) rest ↔
        ∃ rest', Omits nullable form rest' ∧ rest'.map f = rest :=
      ih fun x hx => hnullable x (List.mem_cons_of_mem s hx)
    constructor
    · intro h
      cases h with
      | keep h =>
        obtain ⟨rest', h', rfl⟩ := hrest.mp h
        exact ⟨s :: rest', h'.keep, rfl⟩
      | drop hs h =>
        obtain ⟨rest', h', rfl⟩ := hrest.mp h
        exact ⟨rest', h'.drop ((hnullable s (by simp)).mp hs), rfl⟩
    · rintro ⟨_, h, rfl⟩
      cases h with
      | keep h => exact (hrest.mpr ⟨_, h, rfl⟩).keep
      | drop hs h => exact (hrest.mpr ⟨_, h, rfl⟩).drop ((hnullable s (by simp)).mpr hs)

namespace Grammar

/-- The declared symbols. -/
def declared (g : Grammar) : Set Symbol := {s | s ∈ g.terminals ∨ s ∈ g.nonterminals}

/-- The declared symbols are the terminals and the nonterminals. -/
theorem not_mem_declared_iff {g : Grammar} {s : Symbol} :
    s ∉ g.declared ↔ g.isDeclared s = false :=
  not_or.trans isDeclared_eq_false_iff.symm

/-- The second grammar is the first with nonterminals renamed. -/
structure RenamedBy (g : Grammar) (f : Symbol → Symbol) (h : Grammar) : Prop where
  start : f g.start = h.start
  nonterminals : Set.BijOn f {s | s ∈ g.nonterminals} {s | s ∈ h.nonterminals}
  terminals : ∀ s, s ∈ h.terminals ↔ s ∈ g.terminals
  fixes : ∀ s ∈ g.terminals, f s = s
  rules : ∀ rule, rule ∈ h.rules ↔ ∃ rule' ∈ g.rules, rule'.map f = rule

namespace RenamedBy

variable {g h g' h' : Grammar} {f : Symbol → Symbol} {s a : Symbol} {rule : Rule}

/-! ### Symbols and words under a renaming -/

section Symbols

variable (hrenamed : g.RenamedBy f h) (hh : h.WellFormed)

include hrenamed

/-- Nonterminals are renamed to nonterminals. -/
theorem map_mem_nonterminals (hs : s ∈ g.nonterminals) : f s ∈ h.nonterminals :=
  hrenamed.nonterminals.mapsTo hs

/-- Rules are renamed to rules. -/
theorem map_mem_rules (hrule : rule ∈ g.rules) : rule.map f ∈ h.rules :=
  (hrenamed.rules _).mpr ⟨rule, hrule, rfl⟩

include hh

/-- Exactly the terminals are renamed to terminals. -/
theorem map_mem_terminals_iff (hs : s ∈ g.declared) : f s ∈ h.terminals ↔ s ∈ g.terminals := by
  constructor
  · intro hterminal
    refine hs.resolve_right fun hnonterminal => ?_
    exact hh.disjoint _ hterminal (hrenamed.map_mem_nonterminals hnonterminal)
  · intro hterminal
    rw [hrenamed.fixes s hterminal]
    exact (hrenamed.terminals s).mpr hterminal

private theorem map_mem_nonterminals_iff (hs : s ∈ g.declared) :
    f s ∈ h.nonterminals ↔ s ∈ g.nonterminals := by
  refine ⟨fun hnonterminal => hs.resolve_left fun hterminal => ?_, hrenamed.map_mem_nonterminals⟩
  exact hh.disjoint _ ((hrenamed.map_mem_terminals_iff hh hs).mpr hterminal) hnonterminal

/-- A renaming tells declared symbols apart. -/
theorem injOn_declared : Set.InjOn f g.declared := by
  intro s hs s' hs' heq
  have hterminal := hrenamed.map_mem_terminals_iff hh hs
  rw [heq, hrenamed.map_mem_terminals_iff hh hs'] at hterminal
  by_cases hs₁ : s ∈ g.terminals
  · rwa [hrenamed.fixes s hs₁, hrenamed.fixes s' (hterminal.mpr hs₁)] at heq
  · have hs₂ : s' ∉ g.terminals := fun hs₂ => hs₁ (hterminal.mp hs₂)
    exact hrenamed.nonterminals.injOn (hs.resolve_left hs₁) (hs'.resolve_left hs₂) heq

variable (hg : g.WellFormed)

include hg

/-- A rule of a renamed symbol is a renamed rule of the symbol. -/
theorem exists_of_mem_rules {rhs : List Symbol} (ha : a ∈ g.declared)
    (hrule : ⟨f a, rhs⟩ ∈ h.rules) : ∃ rhs', ⟨a, rhs'⟩ ∈ g.rules ∧ rhs'.map f = rhs := by
  obtain ⟨⟨lhs, rhs'⟩, hrule', heq⟩ := (hrenamed.rules _).mp hrule
  obtain ⟨hlhs, hrhs⟩ := Rule.mk.inj heq
  have hlhs' : lhs ∈ g.declared := Or.inr (hg.lhs _ hrule')
  rw [hrenamed.injOn_declared hh hlhs' ha hlhs] at hrule'
  exact ⟨rhs', hrule', hrhs⟩

/-- A renaming keeps words. -/
theorem wordsOf_eq (hs : s ∈ g.declared) : h.wordsOf (f s) = g.wordsOf s := by
  have hforth : g.FitsWords fun s => h.wordsOf (f s) := by
    refine ⟨fun s hs => ?_, fun rule hrule => ?_⟩
    · rw [hrenamed.fixes s hs]
      exact h.fitsWords_wordsOf.terminals s ((hrenamed.terminals s).mpr hs)
    · rw [← formWords_map]
      exact h.fitsWords_wordsOf.rules _ (hrenamed.map_mem_rules hrule)
  have hback : h.FitsWords fun x => {w | ∀ s ∈ g.declared, f s = x → w ∈ g.wordsOf s} := by
    refine ⟨fun x hx s hs heq => ?_, fun rule hrule w hw s hs heq => ?_⟩
    · have hterminal := (hrenamed.terminals x).mp hx
      have hsame : s = x := by
        refine hrenamed.injOn_declared hh hs (Or.inl hterminal) ?_
        rw [heq, hrenamed.fixes x hterminal]
      rw [hsame]
      exact g.fitsWords_wordsOf.terminals x hterminal
    · obtain ⟨rule', hrule', rfl⟩ := (hrenamed.rules rule).mp hrule
      have hsame : s = rule'.lhs :=
        hrenamed.injOn_declared hh hs (Or.inr (hg.lhs rule' hrule')) heq
      rw [hsame]
      rw [Rule.map, formWords_map] at hw
      refine g.fitsWords_wordsOf.rules rule' hrule' (formWords_mono (fun x hx u hu => ?_) hw)
      exact hu x (hg.rhs rule' hrule' x hx) rfl
  apply Set.Subset.antisymm
  · exact fun w hw => hback.wordsOf_subset (f s) hw s hs rfl
  · exact hforth.wordsOf_subset s

end Symbols

/-! ### Removal of useless symbols -/

/-- Renamed grammars stay so when unproductive symbols are removed. -/
theorem removeUnproductive (hrenamed : g.RenamedBy f h) (hh : h.WellFormed) (hg : g.WellFormed) :
    g.removeUnproductive.RenamedBy f h.removeUnproductive := by
  have hsubset : ∀ a ∈ g.removeUnproductive.nonterminals, a ∈ g.nonterminals := by
    intro a ha
    rcases mem_nonterminals_removeUnproductive.mp ha with rfl | ⟨ha, _⟩
    · exact hg.start
    · exact ha
  refine ⟨hrenamed.start, ⟨fun a ha => ?_, ?_, fun x hx => ?_⟩, hrenamed.terminals, hrenamed.fixes,
    fun rule => ?_⟩
  · have hmem := mem_nonterminals_removeUnproductive.mp ha
    refine mem_nonterminals_removeUnproductive.mpr (hmem.imp ?_ ?_)
    · rintro rfl
      exact hrenamed.start
    · rintro ⟨ha, hwords⟩
      rw [hrenamed.wordsOf_eq hh hg (Or.inr ha)]
      exact ⟨hrenamed.map_mem_nonterminals ha, hwords⟩
  · exact hrenamed.nonterminals.injOn.mono hsubset
  · rcases mem_nonterminals_removeUnproductive.mp hx with rfl | ⟨hx, hwords⟩
    · exact ⟨g.start, mem_nonterminals_removeUnproductive.mpr (Or.inl rfl), hrenamed.start⟩
    · obtain ⟨a, ha, rfl⟩ := hrenamed.nonterminals.surjOn hx
      rw [hrenamed.wordsOf_eq hh hg (Or.inr ha)] at hwords
      exact ⟨a, mem_nonterminals_removeUnproductive.mpr (Or.inr ⟨ha, hwords⟩), rfl⟩
  · have hsame : ∀ rule' ∈ g.rules, ((h.wordsOf (rule'.map f).lhs).Nonempty ∧
        ∀ s ∈ (rule'.map f).rhs, (h.wordsOf s).Nonempty) ↔
        ((g.wordsOf rule'.lhs).Nonempty ∧ ∀ s ∈ rule'.rhs, (g.wordsOf s).Nonempty) := by
      intro rule' hrule'
      have hrhs : ∀ s ∈ rule'.rhs, h.wordsOf (f s) = g.wordsOf s := fun s hs =>
        hrenamed.wordsOf_eq hh hg (hg.rhs rule' hrule' s hs)
      simp +contextual only [Rule.map, List.forall_mem_map, hrhs,
        hrenamed.wordsOf_eq hh hg (Or.inr (hg.lhs rule' hrule'))]
    rw [mem_rules_removeUnproductive, hrenamed.rules]
    simp only [mem_rules_removeUnproductive]
    constructor
    · rintro ⟨⟨rule', hrule', rfl⟩, hwords⟩
      exact ⟨rule', ⟨hrule', (hsame rule' hrule').mp hwords⟩, rfl⟩
    · rintro ⟨rule', ⟨hrule', hwords⟩, rfl⟩
      exact ⟨⟨rule', hrule', rfl⟩, (hsame rule' hrule').mpr hwords⟩

/-- A renaming keeps what a symbol reaches. -/
theorem reaches_iff (hrenamed : g.RenamedBy f h) (hh : h.WellFormed) (hg : g.WellFormed)
    (hs : s ∈ g.declared) : Reaches h.rules h.start (f s) ↔ Reaches g.rules g.start s := by
  have hforth : ∀ a ∈ g.declared, ∀ b, Mentions g.rules a b →
      b ∈ g.declared ∧ Mentions h.rules (f a) (f b) := by
    rintro a _ b ⟨rule, hrule, rfl, hb⟩
    exact ⟨hg.rhs rule hrule b hb, rule.map f, hrenamed.map_mem_rules hrule, rfl,
      List.mem_map_of_mem hb⟩
  have hback : ∀ a ∈ g.declared, ∀ y, Mentions h.rules (f a) y →
      ∃ b, Mentions g.rules a b ∧ f b = y := by
    rintro a ha y ⟨⟨_, rhs⟩, hrule, rfl, hy⟩
    obtain ⟨rhs', hrule', rfl⟩ := hrenamed.exists_of_mem_rules hh hg ha hrule
    obtain ⟨b, hb, rfl⟩ := List.mem_map.mp hy
    exact ⟨b, ⟨⟨a, rhs'⟩, hrule', rfl, hb⟩, rfl⟩
  rw [← hrenamed.start]
  refine (reflTransGen_map_iff hforth hback (Or.inr hg.start)).trans ⟨?_, fun h => ⟨s, hs, h, rfl⟩⟩
  rintro ⟨b, hb, hchain, heq⟩
  rwa [← hrenamed.injOn_declared hh hb hs heq]

/-- Reachable parts of renamed grammars are renamed alike. -/
theorem reachablePart (hrenamed : g.RenamedBy f h) (hh : h.WellFormed) (hg : g.WellFormed)
    (hpart : g.ReachablePart g') (hpart' : h.ReachablePart h') : g'.RenamedBy f h' := by
  refine ⟨?_, ⟨fun a ha => ?_, ?_, fun x hx => ?_⟩, fun s => ?_, fun s hs => ?_, fun rule => ?_⟩
  · rw [hpart.start, hpart'.start]
    exact hrenamed.start
  · obtain ⟨ha, hreaches⟩ := (hpart.nonterminals a).mp ha
    refine (hpart'.nonterminals _).mpr ⟨hrenamed.map_mem_nonterminals ha, ?_⟩
    exact (hrenamed.reaches_iff hh hg (Or.inr ha)).mpr hreaches
  · exact hrenamed.nonterminals.injOn.mono fun a ha => ((hpart.nonterminals a).mp ha).1
  · obtain ⟨hx, hreaches⟩ := (hpart'.nonterminals x).mp hx
    obtain ⟨a, ha, rfl⟩ := hrenamed.nonterminals.surjOn hx
    rw [hrenamed.reaches_iff hh hg (Or.inr ha)] at hreaches
    exact ⟨a, (hpart.nonterminals a).mpr ⟨ha, hreaches⟩, rfl⟩
  · rw [hpart.terminals, hpart'.terminals, hrenamed.terminals]
    refine and_congr_right fun hs => ?_
    have hreaches := hrenamed.reaches_iff hh hg (Or.inl hs)
    rwa [hrenamed.fixes s hs] at hreaches
  · exact hrenamed.fixes s ((hpart.terminals s).mp hs).1
  · rw [hpart'.rules, hrenamed.rules]
    constructor
    · rintro ⟨⟨rule', hrule', rfl⟩, hreaches⟩
      have hlhs := (hrenamed.reaches_iff hh hg (Or.inr (hg.lhs rule' hrule'))).mp hreaches
      exact ⟨rule', (hpart.rules rule').mpr ⟨hrule', hlhs⟩, rfl⟩
    · rintro ⟨rule', hrule', rfl⟩
      obtain ⟨hrule', hreaches⟩ := (hpart.rules rule').mp hrule'
      exact ⟨⟨rule', hrule', rfl⟩,
        (hrenamed.reaches_iff hh hg (Or.inr (hg.lhs rule' hrule'))).mpr hreaches⟩

/-! ### Elimination of epsilon rules -/

/-- A symbol derives the empty word under either name. -/
theorem mem_nullableSymbols_map_iff (hrenamed : g.RenamedBy f h) (hh : h.WellFormed)
    (hg : g.WellFormed) (hs : s ∈ g.declared) :
    f s ∈ h.nullableSymbols ↔ s ∈ g.nullableSymbols := by
  rw [mem_nullableSymbols_iff, mem_nullableSymbols_iff, hrenamed.wordsOf_eq hh hg hs]

/-- Renamed grammars stay so when empty rules are expanded. -/
theorem expandNullable (hrenamed : g.RenamedBy f h) (hh : h.WellFormed) (hg : g.WellFormed) :
    g.expandNullable.RenamedBy f h.expandNullable := by
  have homits : ∀ {lhs : Symbol} {rhs : List Symbol}, ⟨lhs, rhs⟩ ∈ g.rules → ∀ rest,
      Omits h.nullableSymbols (rhs.map f) rest ↔
        ∃ rest', Omits g.nullableSymbols rhs rest' ∧ rest'.map f = rest := fun hrule rest =>
    omits_map_iff fun s hs => hrenamed.mem_nullableSymbols_map_iff hh hg (hg.rhs _ hrule s hs)
  refine ⟨hrenamed.start, hrenamed.nonterminals, hrenamed.terminals, hrenamed.fixes, ?_⟩
  rintro ⟨lhs, rest⟩
  rw [mem_rules_expandNullable]
  constructor
  · rintro ⟨rhs, hrule, hrest, hne⟩
    obtain ⟨⟨lhs', rhs'⟩, hrule', heq⟩ := (hrenamed.rules _).mp hrule
    obtain ⟨rfl, rfl⟩ := Rule.mk.inj heq
    obtain ⟨rest', hrest', rfl⟩ := (homits hrule' rest).mp hrest
    have hne' : rest' ≠ [] := fun hnil => hne (by rw [hnil]; rfl)
    exact ⟨⟨lhs', rest'⟩, mem_rules_expandNullable.mpr ⟨rhs', hrule', hrest', hne'⟩, rfl⟩
  · rintro ⟨⟨lhs', rest'⟩, hrule', heq⟩
    obtain ⟨rfl, rfl⟩ := Rule.mk.inj heq
    obtain ⟨rhs', hrule', hrest', hne'⟩ := mem_rules_expandNullable.mp hrule'
    have homits' := (homits hrule' (rest'.map f)).mpr ⟨rest', hrest', rfl⟩
    refine ⟨rhs'.map f, hrenamed.map_mem_rules hrule', homits', ?_⟩
    exact fun hnil => hne' (List.map_eq_nil_iff.mp hnil)

/-- Two renamings that agree on declared symbols do the same. -/
theorem congr {f' : Symbol → Symbol} (hrenamed : g.RenamedBy f h) (hg : g.WellFormed)
    (heq : Set.EqOn f f' g.declared) : g.RenamedBy f' h where
  start := (heq (Or.inr hg.start)).symm.trans hrenamed.start
  nonterminals := hrenamed.nonterminals.congr fun s hs => heq (Or.inr hs)
  terminals := hrenamed.terminals
  fixes s hs := (heq (Or.inl hs)).symm.trans (hrenamed.fixes s hs)
  rules rule := by
    have hmap : ∀ rule' ∈ g.rules, rule'.map f = rule'.map f' := by
      intro rule' hrule'
      have hrhs : rule'.rhs.map f = rule'.rhs.map f' :=
        List.map_congr_left fun s hs => heq (hg.rhs rule' hrule' s hs)
      rw [Rule.map, Rule.map, heq (Or.inr (hg.lhs rule' hrule')), hrhs]
    rw [hrenamed.rules]
    exact exists_congr fun rule' => and_congr_right fun hrule' => by rw [hmap rule' hrule']

/-- A renaming is extended to new start symbols. -/
theorem prependStart {x y : Symbol} (hrenamed : g.RenamedBy f h) (hg : g.WellFormed)
    (hx : x ∉ g.declared) (hy : y ∉ h.declared) :
    (g.prependStart x).RenamedBy (Function.update f x y) (h.prependStart y) := by
  have heq : Set.EqOn f (Function.update f x y) g.declared := by
    intro s hs
    have hne : s ≠ x := fun h => hx (h ▸ hs)
    exact (Function.update_of_ne hne ..).symm
  have hself : Function.update f x y x = y := Function.update_self ..
  have hupdated := hrenamed.congr hg heq
  refine ⟨hself, ?_, hupdated.terminals, hupdated.fixes, fun rule => ?_⟩
  · have hnew : Function.update f x y x ∉ {s | s ∈ h.nonterminals} := by
      rw [hself]
      exact fun hmem => hy (Or.inr hmem)
    have hbijOn := hupdated.nonterminals.insert hnew
    have hleft : {s | s ∈ (g.prependStart x).nonterminals} = insert x {s | s ∈ g.nonterminals} :=
      Set.ext fun s => mem_nonterminals_prependStart
    have hright : {s | s ∈ (h.prependStart y).nonterminals} = insert y {s | s ∈ h.nonterminals} :=
      Set.ext fun s => mem_nonterminals_prependStart
    rw [hself] at hbijOn
    rwa [hleft, hright]
  · have hunit : Rule.map (Function.update f x y) ⟨x, [g.start]⟩ = ⟨y, [h.start]⟩ := by
      rw [Rule.map, hself, List.map_singleton, hupdated.start]
    have hempty : Rule.map (Function.update f x y) ⟨x, []⟩ = ⟨y, []⟩ := by
      rw [Rule.map, hself, List.map_nil]
    simp only [mem_rules_prependStart, hupdated.rules]
    constructor
    · rintro (⟨rule', hrule', rfl⟩ | rfl | rfl)
      · exact ⟨rule', Or.inl hrule', rfl⟩
      · exact ⟨_, Or.inr (Or.inl rfl), hunit⟩
      · exact ⟨_, Or.inr (Or.inr rfl), hempty⟩
    · rintro ⟨rule', hrule' | rfl | rfl, rfl⟩
      · exact Or.inl ⟨rule', hrule', rfl⟩
      · exact Or.inr (Or.inl hunit)
      · exact Or.inr (Or.inr hempty)

/-! ### Elimination of unit rules -/

/-- Unit right sides are renamed to unit right sides. -/
theorem isUnit_map_iff (hrenamed : g.RenamedBy f h) (hh : h.WellFormed) {rhs : List Symbol}
    (hrhs : ∀ s ∈ rhs, s ∈ g.declared) : h.IsUnit (rhs.map f) ↔ g.IsUnit rhs := by
  constructor
  · rintro ⟨y, hy, heq⟩
    obtain ⟨b, rfl, rfl⟩ := List.map_eq_singleton_iff.mp heq
    exact ⟨b, (hrenamed.map_mem_nonterminals_iff hh (hrhs b (by simp))).mp hy, rfl⟩
  · rintro ⟨b, hb, rfl⟩
    exact ⟨f b, hrenamed.map_mem_nonterminals hb, rfl⟩

/-- A renaming keeps chains of unit rules. -/
theorem unitChain_map_iff (hrenamed : g.RenamedBy f h) (hh : h.WellFormed) (hg : g.WellFormed)
    (ha : a ∈ g.declared) {y : Symbol} :
    Relation.ReflTransGen h.UnitStep (f a) y ↔
      ∃ b ∈ g.declared, Relation.ReflTransGen g.UnitStep a b ∧ f b = y := by
  refine reflTransGen_map_iff ?_ ?_ ha
  · rintro a _ b ⟨hrule, hb⟩
    exact ⟨Or.inr hb, hrenamed.map_mem_rules hrule, hrenamed.map_mem_nonterminals hb⟩
  · rintro a ha y ⟨hrule, hy⟩
    obtain ⟨rhs, hrule', hrhs⟩ := hrenamed.exists_of_mem_rules hh hg ha hrule
    obtain ⟨b, rfl, rfl⟩ := List.map_eq_singleton_iff.mp hrhs
    have hb := hg.rhs _ hrule' b (by simp)
    exact ⟨b, ⟨hrule', (hrenamed.map_mem_nonterminals_iff hh hb).mp hy⟩, rfl⟩

/-- Forms of renamed grammars without unit rules are renamed alike. -/
theorem unitFreeForm (hrenamed : g.RenamedBy f h) (hh : h.WellFormed) (hg : g.WellFormed)
    (hform : g.UnitFreeForm g') (hform' : h.UnitFreeForm h') : g'.RenamedBy f h' := by
  have hinherits : ∀ a ∈ g.nonterminals, ∀ rhs,
      h.Inherits (f a) rhs ↔ ∃ rhs', g.Inherits a rhs' ∧ rhs'.map f = rhs := by
    intro a ha rhs
    constructor
    · rintro ⟨y, hchain, hrule, hproper⟩
      obtain ⟨b, hb, hchain', rfl⟩ := (hrenamed.unitChain_map_iff hh hg (Or.inr ha)).mp hchain
      obtain ⟨rhs', hrule', rfl⟩ := hrenamed.exists_of_mem_rules hh hg hb hrule
      rw [hrenamed.isUnit_map_iff hh (hg.rhs _ hrule')] at hproper
      exact ⟨rhs', ⟨b, hchain', hrule', hproper⟩, rfl⟩
    · rintro ⟨rhs', ⟨b, hchain', hrule', hproper⟩, rfl⟩
      have hb : b ∈ g.declared := Or.inr (hg.lhs _ hrule')
      have hchain :=
        (hrenamed.unitChain_map_iff hh hg (Or.inr ha)).mpr ⟨b, hb, hchain', rfl⟩
      rw [← hrenamed.isUnit_map_iff hh (hg.rhs _ hrule')] at hproper
      exact ⟨f b, hchain, hrenamed.map_mem_rules hrule', hproper⟩
  refine ⟨?_, ?_, ?_, ?_, ?_⟩
  · rw [hform.start, hform'.start]
    exact hrenamed.start
  · rw [hform.nonterminals, hform'.nonterminals]
    exact hrenamed.nonterminals
  · rw [hform.terminals, hform'.terminals]
    exact hrenamed.terminals
  · rw [hform.terminals]
    exact hrenamed.fixes
  · rintro ⟨lhs, rhs⟩
    rw [hform'.rules]
    constructor
    · rintro ⟨hlhs, hrhs⟩
      obtain ⟨a, ha, rfl⟩ := hrenamed.nonterminals.surjOn hlhs
      obtain ⟨rhs', hrhs', rfl⟩ := (hinherits a ha rhs).mp hrhs
      exact ⟨⟨a, rhs'⟩, (hform.rules _).mpr ⟨ha, hrhs'⟩, rfl⟩
    · rintro ⟨⟨a, rhs'⟩, hrule', heq⟩
      obtain ⟨rfl, rfl⟩ := Rule.mk.inj heq
      obtain ⟨ha, hrhs'⟩ := (hform.rules _).mp hrule'
      exact ⟨hrenamed.map_mem_nonterminals ha, (hinherits a ha _).mpr ⟨rhs', hrhs', rfl⟩⟩

end RenamedBy

end Grammar

end Chomsky
