import Chomsky.Proofs.Invariance

/-!
# Trim normal forms

Normalization yields normal forms in which every symbol is useful. The
transformations leave such a grammar alone: nothing is unproductive or unreachable,
no unit rule can be eliminated and no rule is long. Only an epsilon rule of the
start symbol makes a difference.
-/

namespace Chomsky

private theorem omits_iff_eq {nullable : SymbolSet} {form rest : List Symbol}
    (hform : ∀ s ∈ form, s ∉ nullable) : Omits nullable form rest ↔ rest = form := by
  induction form generalizing rest with
  | nil =>
    constructor
    · rintro ⟨⟩
      rfl
    · rintro rfl
      exact .nil
  | cons s form ih =>
    have hrest : ∀ {rest}, Omits nullable form rest ↔ rest = form :=
      ih fun x hx => hform x (List.mem_cons_of_mem s hx)
    constructor
    · intro h
      cases h with
      | keep h => rw [hrest.mp h]
      | drop hs _ => exact absurd hs (hform s List.mem_cons_self)
    · rintro rfl
      exact (hrest.mpr rfl).keep

namespace Grammar

variable {g h k : Grammar} {t t' : SymbolTable} {naming : Naming} {stages : Stages}
  {name : List Symbol → Symbol} {rule : Rule} {s : Symbol}

/-! ### Grammars with the same content -/

/-- Content that is the same twice is the same. -/
theorem SameContent.trans (hsame : g.SameContent h) (hsame' : h.SameContent k) :
    g.SameContent k where
  start := hsame.start.trans hsame'.start
  nonterminals s := (hsame.nonterminals s).trans (hsame'.nonterminals s)
  terminals s := (hsame.terminals s).trans (hsame'.terminals s)
  rules rule := (hsame.rules rule).trans (hsame'.rules rule)

/-- Well-formedness depends on the content alone. -/
theorem SameContent.wellFormed (hsame : g.SameContent h) (hg : g.WellFormed) : h.WellFormed where
  disjoint s hs hs' := hg.disjoint s ((hsame.terminals s).mpr hs) ((hsame.nonterminals s).mpr hs')
  start := by
    rw [← hsame.start, ← hsame.nonterminals]
    exact hg.start
  lhs rule hrule := (hsame.nonterminals _).mp (hg.lhs rule ((hsame.rules rule).mpr hrule))
  rhs rule hrule s hs := by
    rw [← hsame.terminals, ← hsame.nonterminals]
    exact hg.rhs rule ((hsame.rules rule).mpr hrule) s hs

/-- Words depend on the content alone. -/
theorem SameContent.wordsOf_eq (hsame : g.SameContent h) (hg : g.WellFormed)
    (hs : s ∈ g.declared) : h.wordsOf s = g.wordsOf s :=
  hsame.renamedBy.wordsOf_eq (hsame.wellFormed hg) hg hs

/-- Normal form depends on the content alone. -/
theorem SameContent.isChomskyNormal (hsame : g.SameContent h) (hg : g.IsChomskyNormal) :
    h.IsChomskyNormal where
  lhs rule hrule := (hsame.nonterminals _).mp (hg.lhs rule ((hsame.rules rule).mpr hrule))
  rhs rule hrule := by
    simp only [← hsame.terminals, ← hsame.nonterminals]
    exact hg.rhs rule ((hsame.rules rule).mpr hrule)
  epsilon rule hrule hrhs := by
    obtain ⟨hlhs, hnot⟩ := hg.epsilon rule ((hsame.rules rule).mpr hrule) hrhs
    rw [← hsame.start]
    exact ⟨hlhs, fun rule' hrule' => hnot rule' ((hsame.rules rule').mpr hrule')⟩

/-- A well-formed normal form in which every nonterminal has a word and every declared symbol is
reached, as normalization yields it. -/
structure TrimNormal (g : Grammar) : Prop where
  wellFormed : g.WellFormed
  normal : g.IsChomskyNormal
  words : ∀ s ∈ g.nonterminals, (g.wordsOf s).Nonempty
  reached : ∀ s ∈ g.declared, Reaches g.rules g.start s

/-- To be trim and in normal form depends on the content alone. -/
theorem SameContent.trimNormal (hsame : g.SameContent h) (hg : g.TrimNormal) : h.TrimNormal where
  wellFormed := hsame.wellFormed hg.wellFormed
  normal := hsame.isChomskyNormal hg.normal
  words s hs := by
    have hs' := (hsame.nonterminals s).mpr hs
    rw [hsame.wordsOf_eq hg.wellFormed (Or.inr hs')]
    exact hg.words s hs'
  reached s hs := by
    have hs' : s ∈ g.declared := hs.imp (hsame.terminals s).mpr (hsame.nonterminals s).mpr
    have hreaches := hsame.renamedBy.reaches_iff (hsame.wellFormed hg.wellFormed) hg.wellFormed hs'
    exact hreaches.mpr (hg.reached s hs')

/-- The last stage is a trim normal form. -/
theorem Staged.trimNormal (hstaged : g.Staged t naming stages t') (hg : g.WellFormed)
    (hword : g.language.Nonempty) (hcovered : g.CoveredBy t) (hsize : t'.size ≤ UInt32.size) :
    stages.cnf.TrimNormal where
  wellFormed := (hstaged.sound_cnf hg hcovered hsize).wellFormed
  normal := hstaged.isChomskyNormal hg hcovered hsize
  words s hs := by
    have hsplit := (hstaged.sound_split hg hcovered hsize).language
    exact hstaged.cnf.wordsOf_nonempty (hsplit ▸ hword) hs
  reached s hs := by
    rw [hstaged.cnf.reaches_iff]
    rcases hs with hs | hs
    · exact ((hstaged.cnf.terminals s).mp hs).2
    · exact ((hstaged.cnf.nonterminals s).mp hs).2

/-! ### Transformations that change nothing -/

/-- Nothing is removed if every nonterminal has a word. -/
theorem sameContent_removeUnproductive (hg : g.WellFormed)
    (hwords : ∀ s ∈ g.nonterminals, (g.wordsOf s).Nonempty) :
    g.SameContent g.removeUnproductive where
  start := rfl
  nonterminals s := by
    rw [mem_nonterminals_removeUnproductive]
    constructor
    · exact fun hs => Or.inr ⟨hs, hwords s hs⟩
    · rintro (rfl | ⟨hs, _⟩)
      · exact hg.start
      · exact hs
  terminals _ := Iff.rfl
  rules rule := by
    rw [mem_rules_removeUnproductive]
    refine ⟨fun hrule => ⟨hrule, hwords _ (hg.lhs rule hrule), fun s hs => ?_⟩, And.left⟩
    rcases hg.rhs rule hrule s hs with hterminal | hnonterminal
    · exact ⟨[s], g.fitsWords_wordsOf.terminals s hterminal⟩
    · exact hwords s hnonterminal

/-- Nothing is removed if every declared symbol is reached. -/
theorem ReachablePart.sameContent (hpart : g.ReachablePart h) (hg : g.WellFormed)
    (hreached : ∀ s ∈ g.declared, Reaches g.rules g.start s) : g.SameContent h where
  start := hpart.start.symm
  nonterminals s := by
    rw [hpart.nonterminals]
    exact ⟨fun hs => ⟨hs, hreached s (Or.inr hs)⟩, And.left⟩
  terminals s := by
    rw [hpart.terminals]
    exact ⟨fun hs => ⟨hs, hreached s (Or.inl hs)⟩, And.left⟩
  rules rule := by
    rw [hpart.rules]
    exact ⟨fun hrule => ⟨hrule, hreached _ (Or.inr (hg.lhs rule hrule))⟩, And.left⟩

/-- In a normal form only the start symbol can be left out, and it stands on no right side. So the
expansion just drops the epsilon rule. -/
theorem IsChomskyNormal.mem_rules_expandNullable (hnormal : g.IsChomskyNormal) :
    rule ∈ g.expandNullable.rules ↔ rule ∈ g.rules ∧ rule.rhs ≠ [] := by
  have honly : g.OnlyStartEmpty := hnormal.epsilon
  have homits : ∀ {lhs : Symbol} {rhs rest : List Symbol}, ⟨lhs, rhs⟩ ∈ g.rules →
      (Omits g.nullableSymbols rhs rest ↔ rest = rhs) := by
    intro lhs rhs rest hrule
    refine omits_iff_eq fun s hs hnullable => ?_
    rw [mem_nullableSymbols_iff, honly.nil_mem_wordsOf_iff] at hnullable
    obtain ⟨rfl, hnot⟩ := hnormal.epsilon _ hnullable rfl
    exact hnot _ hrule hs
  rw [Grammar.mem_rules_expandNullable]
  constructor
  · rintro ⟨rhs, hrule, hrest, hne⟩
    have hsame := (homits hrule).mp hrest
    rw [← hsame] at hrule
    exact ⟨hrule, hne⟩
  · rintro ⟨hrule, hne⟩
    exact ⟨rule.rhs, hrule, (homits hrule).mpr rfl, hne⟩

/-- A normal form has no unit rules. -/
theorem IsChomskyNormal.not_isUnit (hnormal : g.IsChomskyNormal) (hg : g.WellFormed)
    (hrule : rule ∈ g.rules) : ¬g.IsUnit rule.rhs := by
  rintro ⟨b, hb, hrhs⟩
  rcases hnormal.rhs rule hrule with hnil | ⟨a, ha, hone⟩ | ⟨_, _, _, _, htwo⟩
  · rw [hrhs] at hnil
    cases hnil
  · rw [hrhs] at hone
    obtain rfl := List.singleton_inj.mp hone
    exact hg.disjoint b ha hb
  · rw [hrhs] at htwo
    cases htwo

/-- Without unit rules a nonterminal inherits nothing but its own rules. -/
theorem UnitFreeForm.sameContent (hform : g.UnitFreeForm h) (hg : g.WellFormed)
    (hunit : ∀ rule ∈ g.rules, ¬g.IsUnit rule.rhs) : g.SameContent h where
  start := hform.start.symm
  nonterminals s := by rw [hform.nonterminals]
  terminals s := by rw [hform.terminals]
  rules rule := by
    rw [hform.rules]
    constructor
    · exact fun hrule =>
        ⟨hg.lhs rule hrule, rule.lhs, Relation.ReflTransGen.refl, hrule, hunit rule hrule⟩
    · rintro ⟨_, b, hchain, hrule, _⟩
      rcases Relation.ReflTransGen.cases_head hchain with heq | ⟨c, ⟨hstep, hc⟩, _⟩
      · rwa [← heq] at hrule
      · exact absurd ⟨c, hc, rfl⟩ (hunit _ hstep)

/-- Rules with at most one symbol or two nonterminals on the right need no blocks. -/
theorem SplitBy.sameContent (hsplit : g.SplitBy h name) (hg : g.WellFormed)
    (hshape : ∀ rule ∈ g.rules, rule.rhs.length ≤ 1 ∨
      ∃ b ∈ g.nonterminals, ∃ c ∈ g.nonterminals, rule.rhs = [b, c]) : g.SameContent h := by
  have hblocks : ∀ block, block ∉ g.blocks := by
    rintro block ⟨rule, hrule, hlong, hkind⟩
    rcases hshape rule hrule with hshort | ⟨b, hb, c, hc, hrhs⟩
    · omega
    · rw [hrhs] at hkind
      rcases hkind with ⟨s, hs, hterminal, _⟩ | ⟨hlength, hbegins, hproper⟩
      · rcases List.mem_pair.mp hs with rfl | rfl
        · exact hg.disjoint s hterminal hb
        · exact hg.disjoint s hterminal hc
      · exact hproper (hbegins.eq_of_length_le hlength)
  have hletter : ∀ a ∈ g.nonterminals, name [a] = a := fun a ha =>
    hsplit.letter a (hg.not_mem_terminals ha)
  refine ⟨hsplit.start.symm, fun s => ?_, fun s => by rw [hsplit.terminals], fun rule => ?_⟩
  · rw [hsplit.nonterminals]
    refine ⟨Or.inl, ?_⟩
    rintro (hs | ⟨block, hblock, _⟩)
    · exact hs
    · exact absurd hblock (hblocks block)
  · rw [hsplit.rules]
    constructor
    · intro hrule
      rcases hshape rule hrule with hshort | ⟨b, hb, c, hc, hrhs⟩
      · exact .short hrule hshort
      · obtain ⟨lhs, rhs⟩ := rule
        obtain rfl : rhs = [b, c] := hrhs
        have hlong : SplitRule g.blocks g.rules name ⟨lhs, [name [b], name [c]]⟩ :=
          .long (List.cons_ne_nil b []) hrule
        rwa [hletter b hb, hletter c hc] at hlong
    · intro hrule
      cases hrule with
      | short hrule _ => exact hrule
      | definition hblock _ => exact absurd hblock (hblocks _)
      | @long lhs s block hne hrule =>
        rcases hshape _ hrule with hshort | ⟨b, hb, c, hc, hrhs⟩
        · exact absurd hshort (length_concat_of_ne_nil hne s)
        · obtain ⟨rfl, hlast⟩ := List.append_inj' (show block ++ [s] = [b] ++ [c] from hrhs) rfl
          obtain rfl := List.singleton_inj.mp hlast
          rw [hletter b hb, hletter s hc]
          exact hrule

/-- The reachable part depends on the content only. -/
theorem SameContent.reachablePart (hsame : g.SameContent h) (hpart : h.ReachablePart k) :
    g.ReachablePart k := by
  have hmentions : ∀ a b, Mentions h.rules a b ↔ Mentions g.rules a b := fun a b =>
    exists_congr fun rule => and_congr_left fun _ => (hsame.rules rule).symm
  have hreaches : Reaches h.rules h.start = Reaches g.rules g.start := by
    rw [Reaches, Reaches, hsame.start, funext₂ fun a b => propext (hmentions a b)]
  refine ⟨hpart.start.trans hsame.start.symm, fun s => ?_, fun s => ?_, fun rule => ?_⟩
  · rw [hpart.nonterminals, hsame.nonterminals, hreaches]
  · rw [hpart.terminals, hsame.terminals, hreaches]
  · rw [hpart.rules, hsame.rules, hreaches]

/-- In a normal form the right sides are short or consist of two nonterminals. -/
theorem IsChomskyNormal.shape (hnormal : g.IsChomskyNormal) (hrule : rule ∈ g.rules) :
    rule.rhs.length ≤ 1 ∨ ∃ b ∈ g.nonterminals, ∃ c ∈ g.nonterminals, rule.rhs = [b, c] := by
  rcases hnormal.rhs rule hrule with hnil | ⟨a, _, hone⟩ | htwo
  · exact Or.inl (by simp [hnil])
  · exact Or.inl (by simp [hone])
  · exact Or.inr htwo

end Grammar

end Chomsky
