import Chomsky.Proofs.Ranges
import Chomsky.Proofs.WorkspaceSteps

/-!
# Snapshots over a shared table

A table numbers its names in the order in which it first meets them, and work on any
grammar only adds names to its table. A covered grammar therefore looks the same
before and after: its names and texts, its faults, and the results of its analyses
do not change, although the relations behind them have more rows and columns. This
holds along every sequence of commands that do not change the grammar itself.
-/

namespace Chomsky

/-! ### The numbering of names -/

namespace SymbolTable

variable {t t' : SymbolTable} {name : String}

/-- Names are numbered in the order in which they were met. Numbers and names determine each
other, and a further name gets the number it has or else the next one. -/
structure Numbers (t : SymbolTable) : Prop where
  place : ∀ i name, t.names[i]? = some name →
    (Symbol.ofIndex i).index = i ∧ t.nameOf (Symbol.ofIndex i) = name ∧
      t.find? name = some (Symbol.ofIndex i)
  found : ∀ name s, t.find? name = some s ↔ t.Covers s ∧ t.nameOf s = name
  distinct : ∀ s s', t.Covers s → t.Covers s' → t.nameOf s = t.nameOf s' → s = s'
  order : ∀ names, (t.internAll names).2.names = t.names ++ (names.removeAll t.names).eraseDups
  known : ∀ name ∈ t.names,
    t.find? name = some (t.intern name).1 ∧ (t.intern name).2.names = t.names
  fresh : ∀ name ∉ t.names, (t.intern name).2.size ≤ UInt32.size →
    (t.intern name).1.index = t.size ∧ (t.intern name).2.names = t.names ++ [name]
  interned : ∀ name, (t.intern name).2.size ≤ UInt32.size →
    (t.intern name).2.nameOf (t.intern name).1 = name ∧
      (t.intern name).2.find? name = some (t.intern name).1

/-- A table does so as long as numbers suffice. -/
theorem numbers (hsize : t.size ≤ UInt32.size) : t.Numbers where
  place i name hi := by
    have hlt : i < t.size := (List.getElem?_eq_some_iff.mp hi).1
    have hfind : t.find? name = some (Symbol.ofIndex i) := by
      rw [find?, byName_eq_some_iff.mpr hi, Option.map_some]
    exact ⟨Symbol.index_ofIndex_of_lt (Nat.lt_of_lt_of_le hlt hsize),
      ((find?_eq_some_iff hsize).mp hfind).2, hfind⟩
  found _ _ := find?_eq_some_iff hsize
  distinct _ _ hs hs' heq := t.injOn_nameOf hs hs' heq
  order := t.names_internAll
  known _ hname := ⟨find?_of_mem hname, names_add_of_mem hname⟩
  fresh name hname hsize' := by
    have hlt := Nat.lt_of_lt_of_le (t.numberOf_lt_size_add name) hsize'
    refine ⟨?_, names_add_of_not_mem hname⟩
    rw [intern, Symbol.index_ofIndex_of_lt hlt, numberOf_of_not_mem hname]
  interned name hsize' := ⟨nameOf_intern hsize', t.find?_intern name⟩

/-- Symbols that were handed out keep their names, and are still found by them. -/
structure KeepsNames (t t' : SymbolTable) : Prop where
  covers : ∀ s, t.Covers s → t'.Covers s
  nameOf : ∀ s, t.Covers s → t'.nameOf s = t.nameOf s
  find? : ∀ name s, t.find? name = some s → t'.find? name = some s

private theorem GrowsTo.keepsNames (hgrows : t.GrowsTo t') : t.KeepsNames t' where
  covers _ hs := hgrows.covers hs
  nameOf _ hs := hgrows.nameOf_eq hs
  find? _ _ hfind := hgrows.find?_eq hfind

/-- Symbols that a smaller table has are listed in it. -/
theorem GrowsTo.filter_symbols (hgrows : t.GrowsTo t') (hsize : t'.size ≤ UInt32.size)
    {test : Symbol → Bool} (htest : ∀ s, test s = true → t.Covers s) :
    t'.symbols.filter test = t.symbols.filter test := by
  obtain ⟨k, hk⟩ := Nat.exists_eq_add_of_le hgrows.size_le
  have hbeyond : ∀ s ∈ (List.range k).map fun i => Symbol.ofIndex (t.size + i),
      ¬test s = true := by
    intro s hs htested
    obtain ⟨i, hi, rfl⟩ := List.mem_map.mp hs
    have hlt : i < k := List.mem_range.mp hi
    have hcovers : (Symbol.ofIndex (t.size + i)).index < t.size := htest _ htested
    rw [Symbol.index_ofIndex_of_lt (by omega)] at hcovers
    omega
  rw [symbols, hk, List.range_add, List.map_append, List.map_map, List.filter_append]
  have hnone := List.filter_eq_nil_iff.mpr hbeyond
  exact (congrArg (t.symbols.filter test ++ ·) hnone).trans (List.append_nil _)

end SymbolTable

/-! ### Names and texts -/

variable {t t' : SymbolTable}

private theorem Rule.CoveredBy.named_grow {rule : Rule} (hrule : rule.CoveredBy t)
    (hgrows : t.GrowsTo t') : rule.named t' = rule.named t := by
  have hrhs : rule.rhs.map t'.nameOf = rule.rhs.map t.nameOf :=
    List.map_congr_left fun s hs => hgrows.nameOf_eq (hrule.2 s hs)
  rw [Rule.named, Rule.named, hrhs, hgrows.nameOf_eq hrule.1]

namespace Grammar.CoveredBy

variable {g : Grammar} (hg : g.CoveredBy t) (hgrows : t.GrowsTo t')

include hg hgrows

private theorem namedRules_grow : g.namedRules t' = g.namedRules t :=
  List.map_congr_left fun rule hrule => (hg.rules rule hrule).named_grow hgrows

private theorem named_grow : g.named t' = g.named t := by
  have hnonterminals : g.nonterminals.toList.map t'.nameOf = g.nonterminals.toList.map t.nameOf :=
    List.map_congr_left fun s hs =>
      hgrows.nameOf_eq (hg.nonterminals s (SymbolSet.mem_toList.mp hs))
  have hterminals : g.terminals.toList.map t'.nameOf = g.terminals.toList.map t.nameOf :=
    List.map_congr_left fun s hs => hgrows.nameOf_eq (hg.terminals s (SymbolSet.mem_toList.mp hs))
  rw [named, named, hnonterminals, hterminals, hg.namedRules_grow hgrows,
    hgrows.nameOf_eq hg.start]

private theorem text_grow : g.text t' = g.text t := by
  rw [text, text, hg.namedRules_grow hgrows]

private theorem groupedText_grow : g.groupedText t' = g.groupedText t := by
  refine congrArg String.join (List.map_congr_left fun s hs => ?_)
  obtain ⟨rule, hrule, rfl⟩ := List.mem_map.mp (List.mem_eraseDups.mp hs)
  have halternatives : (g.rulesOf rule.lhs).map (fun rule => (rule.named t').rhsText) =
      (g.rulesOf rule.lhs).map fun rule => (rule.named t).rhsText := by
    refine List.map_congr_left fun other hother => ?_
    rw [(hg.rules other (List.mem_filter.mp hother).1).named_grow hgrows]
  rw [groupText, groupText, halternatives, hgrows.nameOf_eq (hg.rules rule hrule).1]

/-! ### Faults -/

private theorem ruleFault?_grow {rule : Rule} (hrule : rule ∈ g.rules) :
    g.ruleFault? t' rule = g.ruleFault? t rule := by
  have hcovered := hg.rules rule hrule
  have hlhs := hgrows.nameOf_eq hcovered.1
  have hrhs : (rule.rhs.find? fun s => !g.isDeclared s).map
        (fun s => GrammarError.malformedReference (t.nameOf rule.lhs) (t'.nameOf s)) =
      (rule.rhs.find? fun s => !g.isDeclared s).map
        fun s => .malformedReference (t.nameOf rule.lhs) (t.nameOf s) := by
    refine Option.map_congr fun s hs => ?_
    rw [hgrows.nameOf_eq (hcovered.2 s (List.mem_of_find?_eq_some hs))]
  simp only [ruleFault?, hlhs, hrhs]

variable (hsize : t'.size ≤ UInt32.size)

include hsize

private theorem declarationFault?_grow : g.declarationFault? t' = g.declarationFault? t := by
  unfold declarationFault?
  cases hfind : g.terminals.toList.find? g.isNonterminal with
  | some s =>
    have hs : s ∈ g.terminals := SymbolSet.mem_toList.mp (List.mem_of_find?_eq_some hfind)
    simp only [hgrows.nameOf_eq (hg.terminals s hs)]
  | none => simp only [isTaken_grow hg hgrows hsize, hgrows.nameOf_eq hg.start]

private theorem validate_grow : g.validate t' = g.validate t := by
  have hrules : g.rules.findSome? (g.ruleFault? t') = g.rules.findSome? (g.ruleFault? t) := by
    rw [← List.head?_filterMap, ← List.head?_filterMap]
    exact congrArg List.head? (List.filterMap_congr fun _ hrule => hg.ruleFault?_grow hgrows hrule)
  rw [validate, validate, fault?, fault?, hg.declarationFault?_grow hgrows hsize, hrules]

end Grammar.CoveredBy

/-! ### Analyses -/

/-- What a covered symbol reaches does not depend on the size of the table. -/
theorem reachableFrom_grow {rules : List Rule} (hrules : ∀ rule ∈ rules, rule.CoveredBy t)
    {s : Symbol} (hs : t.Covers s) (hgrows : t.GrowsTo t') (hsize : t'.size ≤ UInt32.size) :
    reachableFrom t'.size rules s = reachableFrom t.size rules s := by
  have hsize₀ : t.size ≤ UInt32.size := Nat.le_trans hgrows.size_le hsize
  obtain ⟨r, symbols, hok, hrsize, hrow, hmem⟩ := row_reachabilityOf_eq_ok hrules hs
  obtain ⟨r', symbols', hok', hrsize', hrow', hmem'⟩ := row_reachabilityOf_eq_ok
    (fun rule hrule => (hrules rule hrule).grow hgrows) (hgrows.covers hs)
  have hsame : symbols' = symbols := by
    refine Ascending.eq_of_mem_iff (SymbolRelation.ascending_row (by rwa [hrsize']) hrow')
      (SymbolRelation.ascending_row (by rwa [hrsize]) hrow) fun x => ?_
    rw [hmem', hmem]
  rw [reachableFrom_of_row hok' hrow', reachableFrom_of_row hok hrow, hsame]

namespace Grammar

variable {g : Grammar}

/-- A productive symbol is a terminal or the left side of a rule. -/
theorem CoveredBy.covers_productive (hg : g.CoveredBy t) {s : Symbol}
    (hs : s ∈ g.productiveSymbols) : t.Covers s := by
  rw [productiveSymbols, mem_rhsClosure_iff] at hs
  cases hs with
  | initial hinitial =>
    have hinitial : s ∈ g.nullingSymbols ∨ s ∈ g.terminals := by
      simpa [SymbolSet.mem_iff] using hinitial
    rcases hinitial with hnulling | hterminal
    · exact (hg.rules _ (mem_nullingSymbols_iff.mp hnulling)).1
    · exact hg.terminals s hterminal
  | rule hrule => exact (hg.rules _ hrule).1

private theorem CoveredBy.usefulness_grow (hg : g.CoveredBy t) (hgrows : t.GrowsTo t')
    (hsize : t'.size ≤ UInt32.size) :
    Usefulness.ofGrammar g t'.size = Usefulness.ofGrammar g t.size := by
  have hrules : ∀ rule ∈ g.rules.filter (Usefulness.isProductiveRule g.productiveSymbols),
      rule.CoveredBy t := fun rule hrule => hg.rules rule (List.mem_filter.mp hrule).1
  rw [Usefulness.ofGrammar, Usefulness.ofGrammar, reachableFrom_grow hrules hg.start hgrows hsize]

private theorem CoveredBy.usefulnessReport_grow (hg : g.CoveredBy t) (hgrows : t.GrowsTo t')
    (hsize : t'.size ≤ UInt32.size) : g.usefulnessReport t' = g.usefulnessReport t := by
  obtain ⟨u, hok, hproductive, hreachable⟩ := hg.usefulness_eq_ok
  have hlisted : ∀ set : SymbolSet, (∀ s ∈ set, t.Covers s) →
      (t'.symbols.filter set.contains).map t'.nameOf =
        (t.symbols.filter set.contains).map t.nameOf := by
    intro set hset
    rw [hgrows.filter_symbols hsize hset]
    exact List.map_congr_left fun s hs => hgrows.nameOf_eq (hset s (List.mem_filter.mp hs).2)
  have huseless : (u.uselessRules g.rules).map (fun verdict => UselessReport.mk
        (verdict.rule.named t').text verdict.unreachable verdict.unproductive) =
      (u.uselessRules g.rules).map fun verdict =>
        ⟨(verdict.rule.named t).text, verdict.unreachable, verdict.unproductive⟩ := by
    refine List.map_congr_left fun verdict hverdict => ?_
    obtain ⟨rule, hrule, rfl⟩ := List.mem_map.mp (List.mem_filter.mp hverdict).1
    rw [show (u.judge rule).rule = rule from rfl, (hg.rules rule hrule).named_grow hgrows]
  have hcovers : ∀ s ∈ u.productive, t.Covers s := hproductive ▸ fun _ => hg.covers_productive
  rw [usefulnessReport, usefulnessReport, hg.usefulness_grow hgrows hsize, hok]
  simp only [bind, Except.bind, hlisted u.productive hcovers, hlisted u.reachable hreachable,
    huseless]

/-- What is seen of a grammar is the same over both tables. -/
structure SameView (g : Grammar) (t t' : SymbolTable) : Prop where
  named : g.named t' = g.named t
  namedRules : g.namedRules t' = g.namedRules t
  text : g.text t' = g.text t
  groupedText : g.groupedText t' = g.groupedText t
  validate : g.validate t' = g.validate t
  reachableSymbols : g.reachableSymbols t'.size = g.reachableSymbols t.size
  usefulness : Usefulness.ofGrammar g t'.size = Usefulness.ofGrammar g t.size
  usefulnessReport : g.usefulnessReport t' = g.usefulnessReport t
  analyze : ∃ report report', g.analyze t = .ok report ∧ g.analyze t' = .ok report' ∧
    report'.productive = report.productive ∧ report'.nullable = report.nullable ∧
    report'.reachable = report.reachable ∧ report'.usefulness = report.usefulness

private theorem CoveredBy.analyze_grow (hg : g.CoveredBy t) (hgrows : t.GrowsTo t')
    (hsize : t'.size ≤ UInt32.size) :
    ∃ report report', g.analyze t = .ok report ∧ g.analyze t' = .ok report' ∧
      report'.productive = report.productive ∧ report'.nullable = report.nullable ∧
      report'.reachable = report.reachable ∧ report'.usefulness = report.usefulness := by
  obtain ⟨report, hok, hproductive, hnullable, hreachable, husefulness⟩ := hg.analyze_eq_ok
  obtain ⟨report', hok', hproductive', hnullable', hreachable', husefulness'⟩ :=
    (hg.grow hgrows).analyze_eq_ok
  refine ⟨report, report', hok, hok', hproductive'.trans hproductive.symm,
    hnullable'.trans hnullable.symm, ?_, ?_⟩
  · rw [reachableSymbols, reachableFrom_grow hg.rules hg.start hgrows hsize] at hreachable'
    exact Except.ok.inj (hreachable'.symm.trans hreachable)
  · rw [hg.usefulnessReport_grow hgrows hsize] at husefulness'
    exact Except.ok.inj (husefulness'.symm.trans husefulness)

private theorem CoveredBy.sameView (hg : g.CoveredBy t) (hgrows : t.GrowsTo t')
    (hsize : t'.size ≤ UInt32.size) : g.SameView t t' where
  named := hg.named_grow hgrows
  namedRules := hg.namedRules_grow hgrows
  text := hg.text_grow hgrows
  groupedText := hg.groupedText_grow hgrows
  validate := hg.validate_grow hgrows hsize
  reachableSymbols := reachableFrom_grow hg.rules hg.start hgrows hsize
  usefulness := hg.usefulness_grow hgrows hsize
  usefulnessReport := hg.usefulnessReport_grow hgrows hsize
  analyze := hg.analyze_grow hgrows hsize

end Grammar

/-! ### Runs -/

namespace Workspace

variable {w : Workspace} {commands : List Command} {i : Nat} {snapshot : Snapshot}

/-- A covered grammar is the same after any commands that do not change it. Its table has grown,
symbols keep their names, and as long as numbers suffice the table numbers its names in order and
the grammar looks as before. -/
theorem run_keeps_snapshot (hfind : w.find? i = some (snapshot, t))
    (hcovered : snapshot.grammar.CoveredBy t)
    (hkept : ∀ command ∈ commands, command.mutates i = false) :
    ∃ t', (w.run commands).find? i = some (snapshot, t') ∧ t.GrowsTo t' ∧ t.KeepsNames t' ∧
      (t'.size ≤ UInt32.size → t'.Numbers ∧ snapshot.grammar.SameView t t') := by
  obtain ⟨t', hfind', hgrows⟩ := find?_run hfind hkept
  exact ⟨t', hfind', hgrows, hgrows.keepsNames, fun hsize =>
    ⟨SymbolTable.numbers hsize, hcovered.sameView hgrows hsize⟩⟩

/-- A grammar and its copy, which share a table. -/
def copied : Workspace :=
  .run {} [.new "S", .edit 0 (.declareTerminals ["a"]),
    .edit 0 (.addRules [⟨.name "S", [[.name "a", .name "S", .name "a"], []]⟩]),
    .transform 0 .copy]

/-- Work on both that changes only the copy. -/
def sharedWork : List Command :=
  [.edit 1 (.declareTerminals ["b"]), .edit 0 (.fresh "S" "+"), .query 0 (.normalize {}),
    .edit 1 (.addRules [⟨.name "S", [[.name "b"]]⟩]), .transform 1 (.eliminateEpsilon {}),
    .transform 0 (.binarize { wrapperStem := "W" })]

/-- A snapshot is the same after other work on the table that it shares. -/
theorem run_sharedWork_keeps_snapshot : ∃ snapshot t t',
    copied.find? 0 = some (snapshot, t) ∧
      (copied.run sharedWork).find? 0 = some (snapshot, t') ∧ t.size = 2 ∧ t'.size = 8 ∧
      t'.Numbers ∧ snapshot.grammar.SameView t t' := by
  have hbefore : (copied.find? 0).map (fun found => (found.2.size,
      decide (found.1.grammar.CoveredBy found.2))) = some (2, true) := by decide +kernel
  have hafter : ((copied.run sharedWork).find? 0).map (fun found => found.2.size) = some 8 := by
    decide +kernel
  obtain ⟨⟨snapshot, t⟩, hfind, hseen⟩ := Option.map_eq_some_iff.mp hbefore
  obtain ⟨hsize, hcovered⟩ := Prod.mk.inj hseen
  have hkept : ∀ command ∈ sharedWork, command.mutates 0 = false := by decide
  obtain ⟨t', hfind', _, _, hview⟩ :=
    run_keeps_snapshot hfind (of_decide_eq_true hcovered) hkept
  rw [hfind'] at hafter
  have hsize' : t'.size = 8 := Option.some.inj hafter
  obtain ⟨hnumbers, hsame⟩ := hview (hsize'.trans_le (by decide))
  exact ⟨snapshot, t, t', hfind, hfind', hsize, hsize', hnumbers, hsame⟩

end Workspace

end Chomsky
