import Chomsky.Proofs.Binary
import Chomsky.Proofs.BinarySteps
import Chomsky.Proofs.Introductions

/-!
# Undoing the splitting of rules

In the result of a splitting run each introduced symbol has a single rule, its definition,
which comes before all rules that use the symbol. When the definitions are taken out and
the introduced symbols expanded, the rules that were split come back, in their order
and as often as before.
-/

namespace Chomsky

namespace Binarization

variable {b b' : Binarization} {rule : Rule} {s : Symbol}

/-- A grammar stays well-formed when a fresh symbol is introduced for declared ones. -/
theorem Introduces.wellFormed {rhs : List Symbol} (h : b.Introduces b' s rhs)
    (hb : b.grammar.WellFormed) (hfresh : b.grammar.isDeclared s = false)
    (hrhs : ∀ x ∈ rhs, b.grammar.isDeclared x = true) : b'.grammar.WellFormed where
  disjoint x hx hmem := by
    rw [h.grammar] at hx
    rcases h.mem_nonterminals.mp hmem with hmem | rfl
    · exact hb.disjoint x hx hmem
    · exact (Grammar.isDeclared_eq_false_iff.mp hfresh).1 hx
  start := by
    rw [h.mem_nonterminals, h.grammar]
    exact Or.inl hb.start
  lhs rule hrule := by
    rw [h.grammar] at hrule
    rw [h.mem_nonterminals]
    rcases List.mem_cons.mp hrule with rfl | hrule
    · exact Or.inr rfl
    · exact Or.inl (hb.lhs rule hrule)
  rhs rule hrule x hx := by
    rw [h.grammar] at hrule
    rw [← Grammar.isDeclared_iff, h.isDeclared_iff, Grammar.isDeclared_iff]
    rcases List.mem_cons.mp hrule with rfl | hrule
    · exact Or.inl (Grammar.isDeclared_iff.mp (hrhs x hx))
    · exact Or.inl (hb.rhs rule hrule x hx)

private theorem wellFormed_emit (hb : b.grammar.WellFormed)
    (hlhs : rule.lhs ∈ b.grammar.nonterminals)
    (hrhs : ∀ x ∈ rule.rhs, b.grammar.isDeclared x = true) : (b.emit rule).grammar.WellFormed where
  disjoint := hb.disjoint
  start := hb.start
  lhs other hother := by
    rcases List.mem_cons.mp hother with rfl | hother
    · exact hlhs
    · exact hb.lhs other hother
  rhs other hother x hx := by
    rcases List.mem_cons.mp hother with rfl | hother
    · exact Grammar.isDeclared_iff.mp (hrhs x hx)
    · exact hb.rhs other hother x hx

end Binarization

namespace Grammar

variable {g h : Grammar} {b b' : Binarization} {memo : BinaryMemo} {done : List Rule}
  {d rule : Rule} {s : Symbol}

/-- A symbol that is not declared does not occur in the rules. -/
theorem WellFormed.absent (hg : g.WellFormed) (hs : g.isDeclared s = false) :
    Absent s g.rules := by
  obtain ⟨hterminal, hnonterminal⟩ := isDeclared_eq_false_iff.mp hs
  refine fun rule hrule => ⟨?_, fun hmem => ?_⟩
  · rintro rfl
    exact hnonterminal (hg.lhs rule hrule)
  · rcases hg.rhs rule hrule s hmem with hs | hs
    · exact hterminal hs
    · exact hnonterminal hs

/-! ### Reversible extensions -/

/-- The second grammar extends the first by the definitions of a memo. The introduced symbols are
new and different from each other, and each is defined once, before its uses. There is one way to
expand them, and taking the definitions out gives the listed rules. -/
structure ExtendedBy (g h : Grammar) (memo : BinaryMemo) (done : List Rule) : Prop where
  start : h.start = g.start
  terminals : h.terminals = g.terminals
  nonterminals : ∀ s, s ∈ h.nonterminals ↔ s ∈ g.nonterminals ∨ s ∈ memo.introduced
  fresh : ∀ s ∈ memo.introduced, g.isDeclared s = false
  distinct : memo.introduced.Nodup
  answers : memo.Answers
  isDefinition : ∀ d ∈ memo.definitions, h.IsDefinition d
  defined : ∀ d ∈ memo.definitions, DefinedOnce h.rules d
  expansion : ∀ expand, Unfolds memo.definitions expand ↔
    expand = expandBy (h.rules.filter (· ∈ memo.definitions))
  undone : undo memo.definitions h.rules = done

namespace ExtendedBy

private theorem lhs_mem (hb : g.ExtendedBy h memo done) (hd : d ∈ memo.definitions) :
    d.lhs ∈ h.nonterminals :=
  (hb.nonterminals d.lhs).mpr (Or.inr (List.mem_map_of_mem hd))

/-- A symbol of the first grammar is not defined. -/
theorem ne_lhs (hb : g.ExtendedBy h memo done) (hd : d ∈ memo.definitions)
    (hs : g.isDeclared s = true) : s ≠ d.lhs := by
  rintro rfl
  have hfresh := hb.fresh d.lhs (List.mem_map_of_mem hd)
  rw [hs] at hfresh
  cases hfresh

private theorem isDeclared_eq_false (hb : g.ExtendedBy h memo done) (hs : h.isDeclared s = false) :
    g.isDeclared s = false := by
  rw [isDeclared_eq_false_iff, hb.terminals, hb.nonterminals, not_or] at hs
  exact isDeclared_eq_false_iff.mpr ⟨hs.1, hs.2.1⟩

/-- Symbols of the first grammar are expanded to themselves. -/
theorem flatMap_eq {expand : Symbol → List Symbol} {symbols : List Symbol}
    (hb : g.ExtendedBy h memo done) (hexpand : Unfolds memo.definitions expand)
    (hsymbols : ∀ s ∈ symbols, g.isDeclared s = true) : symbols.flatMap expand = symbols := by
  have hself : ∀ s ∈ symbols, expand s = [s] := fun s hs =>
    hexpand.other s fun d hd => (hb.ne_lhs hd (hsymbols s hs)).symm
  rw [List.flatMap_congr hself]
  simp

/-- Introducing a symbol extends the grammar further, and changes nothing in what is undone. -/
theorem enters (hb : g.ExtendedBy b.finish.grammar b.memo done) (hwell : b.grammar.WellFormed)
    (hnew : b.Enters b' d) (hfresh : b.grammar.isDeclared d.lhs = false) :
    g.ExtendedBy b'.finish.grammar b'.memo done := by
  have hmem : ∀ other, other ∈ b'.memo.definitions ↔ other = d ∨ other ∈ b.memo.definitions :=
    fun _ => hnew.mem_definitions
  have hold := hnew.extends
  -- The new symbol was not declared, so no rule and no definition mentions it.
  have habsent : Absent d.lhs b.finish.grammar.rules := fun rule hrule =>
    hwell.absent hfresh rule (List.mem_reverse.mp hrule)
  have habsent' : Absent d.lhs b.memo.definitions := fun other hother =>
    habsent other (hb.defined other hother).mem
  have hself := hnew.isDefinition.lhs_not_mem hfresh
  exact
    { start := by
        rw [← hb.start]
        simp [Binarization.finish, hnew.introduces.grammar, withRules, addNonterminal]
      terminals := hold.terminals.trans hb.terminals
      nonterminals := fun s => by
        rw [hnew.perm_introduced.mem_iff, List.mem_cons, or_left_comm, ← hb.nonterminals]
        exact hnew.introduces.mem_nonterminals.trans or_comm
      fresh := fun s hs => by
        rcases List.mem_cons.mp (hnew.perm_introduced.mem_iff.mp hs) with rfl | hs
        · exact hb.isDeclared_eq_false hfresh
        · exact hb.fresh s hs
      distinct := by
        rw [hnew.perm_introduced.nodup_iff, List.nodup_cons]
        refine ⟨fun hd => ?_, hb.distinct⟩
        exact (isDeclared_eq_false_iff.mp hfresh).2 ((hb.nonterminals _).mpr (Or.inr hd))
      answers := hnew.answers hb.answers
      isDefinition := fun other hother => by
        rcases (hmem other).mp hother with rfl | hother
        · exact hnew.isDefinition.mono hold.terminals hold.nonterminals
        · exact (hb.isDefinition other hother).mono hold.terminals hold.nonterminals
      defined := fun other hother => by
        rw [hnew.rules_finish]
        rcases (hmem other).mp hother with rfl | hother
        · exact definedOnce_concat habsent hself
        · exact (hb.defined other hother).concat (habsent' other hother).1
      expansion := fun expand => by
        rw [hnew.rules_finish, filter_define hmem habsent, expandBy_concat]
        exact unfolds_define_iff hmem hb.expansion habsent' hself
      undone := by
        rw [hnew.rules_finish, undo_define hmem habsent]
        exact hb.undone }

/-- A rule with the same left side, and a right side that stands for the same symbols, is undone
to the rule. -/
theorem emit {rhs : List Symbol} (hb : g.ExtendedBy b.finish.grammar b.memo done)
    (hlhs : rule.lhs ∈ g.nonterminals) (hrhs : ∀ s ∈ rule.rhs, g.isDeclared s = true)
    (hstand : StandFor b.memo.definitions rhs rule.rhs) :
    g.ExtendedBy (b.emit ⟨rule.lhs, rhs⟩).finish.grammar b.memo (done ++ [rule]) := by
  have hrules : (b.emit ⟨rule.lhs, rhs⟩).finish.grammar.rules =
      b.finish.grammar.rules ++ [⟨rule.lhs, rhs⟩] := by
    simp [Binarization.finish, Binarization.emit, withRules]
  have hne : ∀ d ∈ b.memo.definitions, rule.lhs ≠ d.lhs := fun d hd =>
    hb.ne_lhs hd (isDeclared_iff.mpr (Or.inr hlhs))
  have hnot : ⟨rule.lhs, rhs⟩ ∉ b.memo.definitions := fun hd => hne _ hd rfl
  have hunfolds := (hb.expansion _).mpr rfl
  have hexpanded : Rule.expand (expandBy (b.finish.grammar.rules.filter (· ∈ b.memo.definitions)))
      ⟨rule.lhs, rhs⟩ = rule := by
    rw [Rule.expand, hstand _ hunfolds.defined, hb.flatMap_eq hunfolds hrhs]
  refine { hb with defined := fun d hd => ?_, expansion := fun expand => ?_, undone := ?_ }
  · rw [hrules]
    exact (hb.defined d hd).concat (hne d hd)
  · rw [hrules, List.filter_append]
    simpa [hnot] using hb.expansion expand
  · rw [hrules, undo_concat hnot, hb.undone, hexpanded]

end ExtendedBy

/-- A run that has split some rules: its grammar, so far, is an extension that gives them back. -/
structure Unsplits (g : Grammar) (b : Binarization) (done : List Rule) : Prop where
  covered : b.grammar.CoveredBy b.table
  wellFormed : b.grammar.WellFormed
  extended : g.ExtendedBy b.finish.grammar b.memo done

/-- Introductions leave the rules that were split as they are. -/
theorem Unsplits.steps (hb : g.Unsplits b done)
    (hsteps : Relation.ReflTransGen Binarization.Step b b')
    (hsize : b'.table.size ≤ UInt32.size) : g.Unsplits b' done := by
  induction hsteps with
  | refl => exact hb
  | tail _ hstep ih =>
    obtain ⟨d, hnew⟩ := hstep
    have hb := ih (Nat.le_trans hnew.introduces.grows.size_le hsize)
    have hfresh := hnew.introduces.fresh hb.covered hsize
    have hrhs := hnew.isDefinition.isDeclared
    exact ⟨hnew.introduces.coveredBy hb.covered fun x hx => hb.covered.declared (hrhs x hx),
      hnew.introduces.wellFormed hb.wellFormed hfresh hrhs,
      hb.extended.enters hb.wellFormed hnew hfresh⟩

/-- After one more rule was split, undoing the definitions gives back one more rule. -/
theorem Unsplits.addSplit (hb : g.Unsplits b done) (hg : g.WellFormed) (hrule : rule ∈ g.rules)
    (hsize : (b.addSplit rule).table.size ≤ UInt32.size) :
    g.Unsplits (b.addSplit rule) (done ++ [rule]) := by
  have hlhs := hg.lhs rule hrule
  have hrhs : ∀ s ∈ rule.rhs, g.isDeclared s = true := fun s hs =>
    isDeclared_iff.mpr (hg.rhs rule hrule s hs)
  have hdeclared : ∀ s ∈ rule.rhs, b.grammar.isDeclared s = true := by
    intro s hs
    rw [isDeclared_iff]
    refine (hg.rhs rule hrule s hs).imp (fun hs => hb.extended.terminals ▸ hs) fun hs => ?_
    exact (hb.extended.nonterminals s).mpr (Or.inl hs)
  have hknown : b.Declares := fun _ hd => hb.extended.lhs_mem hd
  -- First symbols are introduced, then a rule is added that stands for the one that is split.
  obtain ⟨b', rhs, hsplit, hsteps, hdeclared', hstand⟩ :=
    Binarization.exists_addSplit hknown hdeclared
  rw [hsplit] at hsize ⊢
  have hb' := hb.steps hsteps hsize
  have hlhs' : rule.lhs ∈ b'.grammar.nonterminals :=
    (hb'.extended.nonterminals rule.lhs).mpr (Or.inl hlhs)
  refine ⟨Binarization.coveredBy_emit hb'.covered ⟨hb'.covered.nonterminals _ hlhs', ?_⟩,
    Binarization.wellFormed_emit hb'.wellFormed hlhs' hdeclared',
    hb'.extended.emit hlhs hrhs hstand⟩
  exact fun s hs => hb'.covered.declared (hdeclared' s hs)

/-- The rules that were split so far can be recovered, at every point of a run. -/
theorem Unsplits.addSplits {rules : List Rule} (hb : g.Unsplits b done) (hg : g.WellFormed)
    (hrules : ∀ rule ∈ rules, rule ∈ g.rules)
    (hsize : (b.addSplits rules).table.size ≤ UInt32.size) :
    g.Unsplits (b.addSplits rules) (done ++ rules) := by
  induction rules generalizing b done with
  | nil =>
    rw [List.append_nil]
    exact hb
  | cons rule rest ih =>
    have hgrows : (b.addSplit rule).table.GrowsTo (b.addSplits (rule :: rest)).table :=
      (Binarization.keptBySteps_growsTo _).addSplits rest (SymbolTable.GrowsTo.refl _)
    have hfirst := hb.addSplit hg (hrules rule (by simp)) (Nat.le_trans hgrows.size_le hsize)
    have hrules' : ∀ other ∈ rest, other ∈ g.rules := fun other hother =>
      hrules other (List.mem_cons_of_mem rule hother)
    have hrun := ih hfirst hrules' hsize
    rwa [List.append_assoc] at hrun

private theorem unsplits_start {t : SymbolTable} (hg : g.WellFormed) (hcovered : g.CoveredBy t)
    (naming : Naming) :
    g.Unsplits { memo := { naming }, table := t, grammar := g.withRules [] } [] where
  covered := (hcovered.covered_start (BinaryMemo.coveredBy_new naming t)).grammar
  wellFormed := ⟨hg.disjoint, hg.start, by simp [withRules], by simp [withRules]⟩
  extended :=
    { start := rfl
      terminals := rfl
      nonterminals := fun s => (or_iff_left List.not_mem_nil).symm
      fresh := fun s hs => absurd hs List.not_mem_nil
      distinct := List.nodup_nil
      answers := ⟨by simp [BinaryMemo.wrapper?, BinaryMemo.definitions],
        by simp [BinaryMemo.helper?, BinaryMemo.definitions]⟩
      isDefinition := fun d hd => absurd hd List.not_mem_nil
      defined := fun d hd => absurd hd List.not_mem_nil
      expansion := fun expand => unfolds_nil
      undone := rfl }

/-- Splitting the rules of a covered, valid grammar extends it by definitions, and undoing them
gives its rules back. Every right side of the result has at most two symbols, two symbols are
nonterminals, and the nonterminals of the grammar keep their words. -/
theorem binarize_reversible {t : SymbolTable} (hcovered : g.CoveredBy t)
    (hvalid : g.validate t = .ok ()) (naming : Naming)
    (hsize : (g.binarize { naming } t).table.size ≤ UInt32.size) :
    g.ExtendedBy (g.binarize { naming } t).grammar (g.binarize { naming } t).memo g.rules ∧
      (∀ rule ∈ (g.binarize { naming } t).grammar.rules, rule.rhs.length ≤ 2 ∧
        (rule.rhs.length = 2 →
          ∀ s ∈ rule.rhs, s ∈ (g.binarize { naming } t).grammar.nonterminals)) ∧
      ∀ s ∈ g.nonterminals, (g.binarize { naming } t).grammar.wordsOf s = g.wordsOf s := by
  have hg := (validate_eq_ok_iff.mp hvalid).1
  obtain ⟨name, hsplit⟩ := splitBy_binarize hg hcovered naming hsize
  have hrun := (unsplits_start hg hcovered naming).addSplits hg (fun _ hrule => hrule) hsize
  refine ⟨hrun.extended, fun rule hrule => ?_, fun s hs => ?_⟩
  · rcases hsplit.rhs_cases hg hrule with ⟨_, hlength⟩ | ⟨a, _, hrhs⟩ | ⟨x, hx, y, hy, hrhs⟩
    · exact ⟨by omega, fun htwo => by omega⟩
    · rw [hrhs]
      exact ⟨by simp, fun htwo => by simp at htwo⟩
    · rw [hrhs]
      exact ⟨Nat.le_refl 2, fun _ => by simp [hx, hy]⟩
  · exact hsplit.wordsOf_eq hg (isDeclared_iff.mpr (Or.inr hs))

/-- The wanted names of the wrapper and of the first helper are taken, and two long rules are the
same. -/
def crowded : Grammar where
  start := ⟨0⟩
  nonterminals := .ofList [⟨0⟩, ⟨1⟩, ⟨2⟩]
  terminals := .ofList [⟨3⟩, ⟨4⟩]
  rules := [⟨⟨0⟩, [⟨3⟩, ⟨1⟩, ⟨3⟩]⟩, ⟨⟨0⟩, [⟨3⟩, ⟨1⟩, ⟨3⟩]⟩, ⟨⟨0⟩, []⟩, ⟨⟨0⟩, [⟨1⟩]⟩,
    ⟨⟨1⟩, [⟨3⟩, ⟨1⟩, ⟨2⟩]⟩, ⟨⟨2⟩, [⟨4⟩]⟩]

def crowdedTable : SymbolTable := (SymbolTable.empty.internAll ["S", "B", "H1", "a", "T_a"]).2

/-- One wrapper and one helper serve all three long rules and are expanded in each of them. -/
theorem binarize_crowded_reversible :
    (crowded.binarize {} crowdedTable).grammar.rules = [⟨⟨5⟩, [⟨3⟩]⟩, ⟨⟨6⟩, [⟨5⟩, ⟨1⟩]⟩,
        ⟨⟨0⟩, [⟨6⟩, ⟨5⟩]⟩, ⟨⟨0⟩, [⟨6⟩, ⟨5⟩]⟩, ⟨⟨0⟩, []⟩, ⟨⟨0⟩, [⟨1⟩]⟩, ⟨⟨1⟩, [⟨6⟩, ⟨2⟩]⟩,
        ⟨⟨2⟩, [⟨4⟩]⟩] ∧
      (crowded.binarize {} crowdedTable).memo.introduced.map
        (crowded.binarize {} crowdedTable).table.nameOf = ["T_a'", "H2"] ∧
      (∀ expand, Unfolds (crowded.binarize {} crowdedTable).memo.definitions expand →
        expand ⟨6⟩ = [⟨3⟩, ⟨1⟩]) ∧
      undo (crowded.binarize {} crowdedTable).memo.definitions
        (crowded.binarize {} crowdedTable).grammar.rules = crowded.rules := by
  obtain ⟨hextended, _, _⟩ := binarize_reversible (g := crowded) (t := crowdedTable)
    (by decide +kernel) (by decide +kernel) {} (by decide +kernel)
  refine ⟨by decide +kernel, by decide +kernel, fun expand hexpand => ?_, hextended.undone⟩
  rw [(hextended.expansion expand).mp hexpand]
  decide +kernel

end Grammar

end Chomsky
