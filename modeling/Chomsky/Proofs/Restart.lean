import Chomsky.Proofs.TrimNormal

/-!
# A normal form under a new start symbol

A trim normal form with an epsilon rule gets a new start symbol when its epsilon
rules are eliminated again. The new symbol takes over all alternatives of the old
one by the elimination of unit rules, and the old one, which stands on no right
side, is left unreachable. What remains is the normal form with its start symbol
replaced.
-/

namespace Chomsky.Grammar

variable {g h r u n : Grammar} {rule : Rule} {s x : Symbol}

/-! ### Replacing the start symbol -/

/-- The grammar with another symbol in place of its start symbol. -/
def replaceStart (g : Grammar) (s : Symbol) : Grammar where
  start := s
  nonterminals := (g.nonterminals.erase g.start).insert s
  terminals := g.terminals
  rules := g.rules.map (Rule.map fun x => if x = g.start then s else x)

private theorem mem_nonterminals_replaceStart {a : Symbol} :
    a ∈ (g.replaceStart s).nonterminals ↔ a = s ∨ (a ≠ g.start ∧ a ∈ g.nonterminals) := by
  simp [replaceStart, SymbolSet.mem_iff]

/-- If the start symbol stands on no right side, it is replaced on left sides only. -/
theorem mem_rules_replaceStart (hnot : ∀ rule ∈ g.rules, g.start ∉ rule.rhs) :
    rule ∈ (g.replaceStart s).rules ↔ (rule.lhs = s ∧ ⟨g.start, rule.rhs⟩ ∈ g.rules) ∨
      (rule ∈ g.rules ∧ rule.lhs ≠ g.start) := by
  have hrhs : ∀ rule ∈ g.rules,
      rule.rhs.map (fun x => if x = g.start then s else x) = rule.rhs := by
    intro rule hrule
    refine (List.map_congr_left fun x hx => ?_).trans (List.map_id _)
    exact if_neg (ne_of_mem_of_not_mem hx (hnot rule hrule))
  rw [replaceStart, List.mem_map]
  constructor
  · rintro ⟨⟨lhs, rhs⟩, hrule, rfl⟩
    rw [Rule.map, hrhs _ hrule]
    by_cases hlhs : lhs = g.start
    · rw [if_pos hlhs]
      exact Or.inl ⟨rfl, hlhs ▸ hrule⟩
    · rw [if_neg hlhs]
      exact Or.inr ⟨hrule, hlhs⟩
  · obtain ⟨lhs, rhs⟩ := rule
    rintro (⟨rfl, hrule⟩ | ⟨hrule, hlhs⟩)
    · exact ⟨⟨g.start, rhs⟩, hrule, by rw [Rule.map, hrhs _ hrule, if_pos rfl]⟩
    · exact ⟨⟨lhs, rhs⟩, hrule, by rw [Rule.map, hrhs _ hrule, if_neg hlhs]⟩

/-- Grammars of the same content stay so with another start symbol. -/
theorem SameContent.replaceStart (hsame : g.SameContent h) (s : Symbol) :
    (g.replaceStart s).SameContent (h.replaceStart s) where
  start := rfl
  nonterminals a := by
    rw [mem_nonterminals_replaceStart, mem_nonterminals_replaceStart, hsame.start,
      hsame.nonterminals]
  terminals := hsame.terminals
  rules rule := by
    simp only [Grammar.replaceStart, List.mem_map, hsame.start, hsame.rules]

/-- A symbol that is not declared can replace the start symbol without making rules equal. -/
theorem nodup_rules_replaceStart (hg : g.WellFormed) (hs : g.isDeclared s = false)
    (hnodup : g.rules.Nodup) : (g.replaceStart s).rules.Nodup := by
  have hne : ∀ a ∈ g.declared, a ≠ s := by
    rintro a ha rfl
    exact not_mem_declared_iff.mpr hs ha
  have hinjective : Set.InjOn (fun x => if x = g.start then s else x) g.declared := by
    intro a ha b hb heq
    by_cases ha' : a = g.start <;> by_cases hb' : b = g.start
    · rw [ha', hb']
    · simp only [if_pos ha', if_neg hb'] at heq
      exact absurd heq.symm (hne b hb)
    · simp only [if_neg ha', if_pos hb'] at heq
      exact absurd heq (hne a ha)
    · simpa only [if_neg ha', if_neg hb'] using heq
  have hdeclared : ∀ rule ∈ g.rules, rule.lhs ∈ g.declared ∧ ∀ x ∈ rule.rhs, x ∈ g.declared :=
    fun rule hrule => ⟨Or.inr (hg.lhs rule hrule), hg.rhs rule hrule⟩
  exact hnodup.map_on fun a ha b hb heq =>
    Rule.map_injOn hinjective (hdeclared a ha) (hdeclared b hb) heq

/-! ### The run of a normal form with an epsilon rule -/

/-- The normal form without its epsilon rule, but with a new start symbol. -/
def restart (r : Grammar) (x : Symbol) : Grammar :=
  (r.expandNullable.prependStart x).removeUnproductive

section NewStart

variable (hr : r.TrimNormal) (hempty : ⟨r.start, []⟩ ∈ r.rules) (hx : r.isDeclared x = false)

include hr

/-- The expanded grammar has the proper rules and the two rules of the new start symbol. -/
theorem TrimNormal.mem_rules_expanded :
    rule ∈ (r.expandNullable.prependStart x).rules ↔
      (rule ∈ r.rules ∧ rule.rhs ≠ []) ∨ rule = ⟨x, [r.start]⟩ ∨ rule = ⟨x, []⟩ := by
  rw [mem_rules_prependStart, hr.normal.mem_rules_expandNullable]
  rfl

/-- Only the old start symbol can lose its words with the epsilon rule. -/
theorem TrimNormal.words_expanded (hs : s ∈ r.declared) (hne : s ≠ r.start) :
    ((r.expandNullable.prependStart x).wordsOf s).Nonempty := by
  have hword : (r.wordsOf s).Nonempty := by
    rcases hs with hs | hs
    · exact ⟨[s], r.fitsWords_wordsOf.terminals s hs⟩
    · exact hr.words s hs
  obtain ⟨w, hw⟩ := hword
  have honly : r.OnlyStartEmpty := hr.normal.epsilon
  have hnil : w ≠ [] := by
    rintro rfl
    exact hne (hr.normal.epsilon _ (honly.nil_mem_wordsOf_iff.mp hw) rfl).1
  have hexpanded : w ∈ r.expandNullable.wordsOf s := by
    rw [wordsOf_expandNullable]
    exact ⟨hw, hnil⟩
  have hfits : r.expandNullable.FitsWords (r.expandNullable.prependStart x).wordsOf :=
    ⟨(r.expandNullable.prependStart x).fitsWords_wordsOf.terminals, fun rule hrule =>
      (r.expandNullable.prependStart x).fitsWords_wordsOf.rules rule
        (mem_rules_prependStart.mpr (Or.inl hrule))⟩
  exact ⟨w, hfits.wordsOf_subset s hexpanded⟩

private theorem TrimNormal.rule_of_restart (hrule : rule ∈ (r.restart x).rules) :
    (rule ∈ r.rules ∧ rule.rhs ≠ []) ∨ rule = ⟨x, [r.start]⟩ ∨ rule = ⟨x, []⟩ :=
  hr.mem_rules_expanded.mp (mem_rules_removeUnproductive.mp hrule).1

include hempty

private theorem TrimNormal.start_not_mem_rhs {lhs : Symbol} {rhs : List Symbol}
    (hrule : ⟨lhs, rhs⟩ ∈ r.rules) : r.start ∉ rhs :=
  (hr.normal.epsilon _ hempty rfl).2 _ hrule

/-- The proper rules are productive. -/
theorem TrimNormal.mem_rules_restart (hrule : rule ∈ r.rules) (hne : rule.rhs ≠ []) :
    rule ∈ (r.restart x).rules := by
  have hwords : (formWords (r.expandNullable.prependStart x).wordsOf rule.rhs).Nonempty := by
    refine formWords_nonempty_iff.mpr fun s hs => ?_
    refine hr.words_expanded (hr.wellFormed.rhs rule hrule s hs) ?_
    exact ne_of_mem_of_not_mem hs (hr.start_not_mem_rhs hempty hrule)
  obtain ⟨w, hw⟩ := hwords
  refine mem_rules_removeUnproductive_of_reading ?_ hw
  exact hr.mem_rules_expanded.mpr (Or.inl ⟨hrule, hne⟩)

omit hempty

include hx

private theorem TrimNormal.wellFormed_restart : (r.restart x).WellFormed :=
  (hr.wellFormed.expandNullable.prependStart hx).removeUnproductive

/-- Every nonterminal has a word after unit rules were eliminated. -/
theorem TrimNormal.words_unitFree (hform : (r.restart x).UnitFreeForm u) :
    ∀ s ∈ u.nonterminals, (u.wordsOf s).Nonempty := by
  intro s hs
  rw [hform.wordsOf_eq (hr.wellFormed_restart hx), restart, wordsOf_removeUnproductive]
  rw [hform.nonterminals] at hs
  rcases mem_nonterminals_removeUnproductive.mp hs with hstart | ⟨_, hwords⟩
  · obtain rfl : s = x := hstart
    have hrule := (hr.mem_rules_expanded (x := s)).mpr (Or.inr (Or.inr rfl))
    exact ⟨[], (r.expandNullable.prependStart s).fitsWords_wordsOf.rules _ hrule rfl⟩
  · exact hwords

private theorem TrimNormal.start_ne : r.start ≠ x := by
  rintro rfl
  exact (isDeclared_eq_false_iff.mp hx).2 hr.wellFormed.start

/-- A right side of the normal form is no unit here either: its only single symbols are
terminals. -/
theorem TrimNormal.not_isUnit_restart {lhs : Symbol} {rhs : List Symbol}
    (hrule : ⟨lhs, rhs⟩ ∈ r.rules) : ¬(r.restart x).IsUnit rhs := by
  rintro ⟨b, hb, rfl⟩
  rcases hr.normal.rhs _ hrule with hnil | ⟨a, ha, hone⟩ | ⟨_, _, _, _, htwo⟩
  · cases hnil
  · obtain rfl := List.singleton_inj.mp hone
    exact (hr.wellFormed_restart hx).disjoint b ha hb
  · cases htwo

/-- The only unit rule leads from the new start symbol to the old one. -/
theorem TrimNormal.unitStep_restart {a b : Symbol} (hstep : (r.restart x).UnitStep a b) :
    a = x ∧ b = r.start := by
  obtain ⟨hrule, hb⟩ := hstep
  rcases hr.rule_of_restart hrule with ⟨hrule, _⟩ | heq | heq
  · exact absurd ⟨b, hb, rfl⟩ (hr.not_isUnit_restart hx hrule)
  · obtain ⟨rfl, hrhs⟩ := Rule.mk.inj heq
    exact ⟨rfl, List.singleton_inj.mp hrhs⟩
  · cases (Rule.mk.inj heq).2

private theorem TrimNormal.unitChain_restart {a b : Symbol}
    (hchain : Relation.ReflTransGen (r.restart x).UnitStep a b) :
    b = a ∨ (a = x ∧ b = r.start) := by
  rcases Relation.ReflTransGen.cases_head hchain with heq | ⟨c, hfirst, hrest⟩
  · exact Or.inl heq.symm
  · obtain ⟨rfl, rfl⟩ := hr.unitStep_restart hx hfirst
    rcases Relation.ReflTransGen.cases_head hrest with heq | ⟨_, hnext, _⟩
    · exact Or.inr ⟨rfl, heq.symm⟩
    · exact absurd (hr.unitStep_restart hx hnext).1 (hr.start_ne hx)

/-- What a nonterminal inherits is a rule of its own, or one that the new start symbol has from the
old one. -/
theorem TrimNormal.of_inherits {a : Symbol} {rhs : List Symbol} (hempty : ⟨r.start, []⟩ ∈ r.rules)
    (hinherits : (r.restart x).Inherits a rhs) :
    (a = x ∧ ⟨r.start, rhs⟩ ∈ r.rules) ∨ (⟨a, rhs⟩ ∈ r.rules ∧ rhs ≠ []) := by
  obtain ⟨b, hchain, hrule, hnot⟩ := hinherits
  rcases hr.unitChain_restart hx hchain with rfl | ⟨rfl, rfl⟩
  · rcases hr.rule_of_restart hrule with hold | hnew | hnew
    · exact Or.inr hold
    · -- The unit rule of the new start symbol is not inherited.
      obtain ⟨rfl, rfl⟩ := Rule.mk.inj hnew
      have hdeclared := (hr.wellFormed_restart hx).rhs _ hrule r.start (List.mem_singleton_self _)
      refine absurd ⟨r.start, hdeclared.resolve_left fun hterminal => ?_, rfl⟩ hnot
      exact hr.wellFormed.disjoint _ hterminal hr.wellFormed.start
    · obtain ⟨rfl, rfl⟩ := Rule.mk.inj hnew
      exact Or.inl ⟨rfl, hempty⟩
  · rcases hr.rule_of_restart hrule with ⟨hold, _⟩ | hnew | hnew
    · exact Or.inl ⟨rfl, hold⟩
    · exact absurd (Rule.mk.inj hnew).1 (hr.start_ne hx)
    · exact absurd (Rule.mk.inj hnew).1 (hr.start_ne hx)

include hempty

/-- The new start symbol inherits every alternative of the old one. -/
theorem TrimNormal.inherits_start {rhs : List Symbol} (hrule : ⟨r.start, rhs⟩ ∈ r.rules) :
    (r.restart x).Inherits x rhs := by
  by_cases hne : rhs = []
  · subst hne
    refine ⟨x, Relation.ReflTransGen.refl, ?_, hr.not_isUnit_restart hx hrule⟩
    refine mem_rules_removeUnproductive_of_reading (w := []) ?_ rfl
    exact hr.mem_rules_expanded.mpr (Or.inr (Or.inr rfl))
  · have hkept := hr.mem_rules_restart hempty (x := x) hrule hne
    obtain ⟨_, ⟨w, hw⟩, _⟩ := mem_rules_removeUnproductive.mp hkept
    have hstep : ⟨x, [r.start]⟩ ∈ (r.restart x).rules := by
      refine mem_rules_removeUnproductive_of_reading (w := w) ?_ ?_
      · exact hr.mem_rules_expanded.mpr (Or.inr (Or.inl rfl))
      · rwa [formWords_singleton]
    have hstart := (hr.wellFormed_restart hx).lhs _ hkept
    exact ⟨r.start, Relation.ReflTransGen.single ⟨hstep, hstart⟩, hkept,
      hr.not_isUnit_restart hx hrule⟩

/-- The new start symbol takes over all alternatives of the old one, and nothing else is
inherited. -/
theorem TrimNormal.mem_rules_unitFree (hform : (r.restart x).UnitFreeForm u) :
    rule ∈ u.rules ↔ (rule.lhs = x ∧ ⟨r.start, rule.rhs⟩ ∈ r.rules) ∨
      (rule ∈ r.rules ∧ rule.rhs ≠ []) := by
  have hwell := hr.wellFormed_restart hx
  rw [hform.rules]
  constructor
  · exact fun ⟨_, hinherits⟩ => hr.of_inherits hx hempty hinherits
  · rintro (⟨hlhs, hrule⟩ | ⟨hrule, hne⟩)
    · rw [hlhs]
      exact ⟨hwell.start, hr.inherits_start hempty hx hrule⟩
    · have hkept := hr.mem_rules_restart hempty (x := x) hrule hne
      exact ⟨hwell.lhs _ hkept, rule.lhs, Relation.ReflTransGen.refl, hkept,
        hr.not_isUnit_restart hx hrule⟩

/-- An inherited right side is one of the normal form. -/
theorem TrimNormal.exists_rule_of_unitFree (hform : (r.restart x).UnitFreeForm u)
    (hrule : rule ∈ u.rules) : ∃ lhs, ⟨lhs, rule.rhs⟩ ∈ r.rules := by
  rcases (hr.mem_rules_unitFree hempty hx hform).mp hrule with ⟨_, hold⟩ | ⟨hold, _⟩
  · exact ⟨_, hold⟩
  · exact ⟨_, hold⟩

/-- The new start symbol reaches what the old one reached, but not the old one itself. -/
theorem TrimNormal.reaches_unitFree_iff (hform : (r.restart x).UnitFreeForm u) :
    Reaches u.rules u.start s ↔ s = x ∨ (s ∈ r.declared ∧ s ≠ r.start) := by
  have hrules : ∀ rule, rule ∈ u.rules ↔ (rule.lhs = x ∧ ⟨r.start, rule.rhs⟩ ∈ r.rules) ∨
      (rule ∈ r.rules ∧ rule.rhs ≠ []) := fun _ => hr.mem_rules_unitFree hempty hx hform
  rw [show u.start = x from hform.start]
  constructor
  · intro hreaches
    rcases Relation.ReflTransGen.cases_tail hreaches with heq | ⟨a, _, rule, hrule, _, hs⟩
    · exact Or.inl heq
    · obtain ⟨lhs, hold⟩ := hr.exists_rule_of_unitFree hempty hx hform hrule
      exact Or.inr ⟨hr.wellFormed.rhs _ hold s hs,
        ne_of_mem_of_not_mem hs (hr.start_not_mem_rhs hempty hold)⟩
  · rintro (rfl | ⟨hs, hne⟩)
    · exact Relation.ReflTransGen.refl
    · have hold := hr.reached s hs
      clear hs
      induction hold with
      | refl => exact absurd rfl hne
      | @tail a b _ hstep ih =>
        obtain ⟨rule, hrule, rfl, hb⟩ := hstep
        by_cases hlhs : rule.lhs = r.start
        · refine Relation.ReflTransGen.single ⟨⟨x, rule.rhs⟩, ?_, rfl, hb⟩
          exact (hrules _).mpr (Or.inl ⟨rfl, by rwa [← hlhs]⟩)
        · refine (ih hlhs).tail ⟨rule, ?_, rfl, hb⟩
          exact (hrules _).mpr (Or.inr ⟨hrule, List.ne_nil_of_mem hb⟩)

/-- The rules that the nonterminals inherit need not be split. -/
theorem TrimNormal.shape_unitFree (hform : (r.restart x).UnitFreeForm u) (hu : u.WellFormed)
    (rule : Rule) (hrule : rule ∈ u.rules) :
    rule.rhs.length ≤ 1 ∨ ∃ b ∈ u.nonterminals, ∃ c ∈ u.nonterminals, rule.rhs = [b, c] := by
  obtain ⟨lhs, hold⟩ := hr.exists_rule_of_unitFree hempty hx hform hrule
  have hkept : ∀ b ∈ rule.rhs, b ∈ r.nonterminals → b ∈ u.nonterminals := by
    intro b hb hnonterminal
    refine (hu.rhs rule hrule b hb).resolve_left fun hterminal => ?_
    rw [hform.terminals] at hterminal
    exact hr.wellFormed.disjoint b hterminal hnonterminal
  refine (hr.normal.shape hold).imp_right ?_
  rintro ⟨b, hb, c, hc, hrhs⟩
  have hrhs : rule.rhs = [b, c] := hrhs
  exact ⟨b, hkept b (by simp [hrhs]) hb, c, hkept c (by simp [hrhs]) hc, hrhs⟩

/-- What the new start symbol reaches is the normal form with its start symbol replaced. -/
theorem TrimNormal.sameContent_replaceStart (hform : (r.restart x).UnitFreeForm u)
    (hpart : u.ReachablePart n) : (r.replaceStart x).SameContent n := by
  have hstart : u.start = x := hform.start
  have hreaches : ∀ s, Reaches u.rules u.start s ↔ s = x ∨ (s ∈ r.declared ∧ s ≠ r.start) :=
    fun _ => hr.reaches_unitFree_iff hempty hx hform
  have hnonterminals : ∀ s, s ∈ u.nonterminals ↔ s = x ∨
      ((s = x ∨ s ∈ r.nonterminals) ∧ ((r.expandNullable.prependStart x).wordsOf s).Nonempty) := by
    intro s
    rw [hform.nonterminals, restart, mem_nonterminals_removeUnproductive,
      mem_nonterminals_prependStart]
    rfl
  refine ⟨hpart.start.trans hstart |>.symm, fun s => ?_, fun s => ?_, fun rule => ?_⟩
  · rw [mem_nonterminals_replaceStart, hpart.nonterminals, hreaches, hnonterminals]
    constructor
    · rintro (rfl | ⟨hne, hs⟩)
      · exact ⟨Or.inl rfl, Or.inl rfl⟩
      · exact ⟨Or.inr ⟨Or.inr hs, hr.words_expanded (Or.inr hs) hne⟩,
          Or.inr ⟨Or.inr hs, hne⟩⟩
    · rintro ⟨heq | ⟨heq | hs, _⟩, hreached⟩
      · exact Or.inl heq
      · exact Or.inl heq
      · exact hreached.imp_right fun hold => ⟨hold.2, hs⟩
  · rw [hpart.terminals, hreaches, hform.terminals]
    constructor
    · intro hs
      have hne : s ≠ r.start := by
        rintro rfl
        exact hr.wellFormed.disjoint _ hs hr.wellFormed.start
      exact ⟨hs, Or.inr ⟨Or.inl hs, hne⟩⟩
    · exact And.left
  · rw [mem_rules_replaceStart fun rule hrule => hr.start_not_mem_rhs hempty hrule, hpart.rules,
      hreaches, hr.mem_rules_unitFree hempty hx hform]
    constructor
    · rintro (⟨hlhs, hrule⟩ | ⟨hrule, hlhs⟩)
      · exact ⟨Or.inl ⟨hlhs, hrule⟩, Or.inl hlhs⟩
      · have hne : rule.rhs ≠ [] := fun hnil => hlhs (hr.normal.epsilon rule hrule hnil).1
        exact ⟨Or.inr ⟨hrule, hne⟩, Or.inr ⟨Or.inr (hr.wellFormed.lhs rule hrule), hlhs⟩⟩
    · rintro ⟨hold | ⟨hrule, _⟩, hreached⟩
      · exact Or.inl hold
      · rcases hreached with hlhs | ⟨_, hne⟩
        · exact absurd hlhs (hr.wellFormed.not_mem_rule hx hrule).1
        · exact Or.inr ⟨hrule, hne⟩

end NewStart

end Chomsky.Grammar
