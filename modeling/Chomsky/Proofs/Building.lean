import Chomsky.Proofs.ComputedStages
import Chomsky.Proofs.Described

/-!
# What a description builds

A description is consistent when its declarations fit together and each of its rules
fits the declarations. Every other description has a first fault: the declarations
come before the rules, an earlier rule before a later one, and for each of them the
faults are looked for in a fixed order. A consistent description builds a grammar,
and any other is rejected with its first fault.

The grammar is checked once more after it was built. Names and symbols determine each
other as long as numbers suffice, so this second check can find nothing that the
first has not found.
-/

namespace Chomsky

/-- If not all items have a property, there is a first one that does not. -/
theorem exists_first_not {α : Type} {property : α → Prop} {items : List α}
    (h : ¬∀ item ∈ items, property item) : ∃ before item after, items = before ++ item :: after ∧
      (∀ other ∈ before, property other) ∧ ¬property item := by
  induction items with
  | nil => exact absurd (fun _ hmem => absurd hmem List.not_mem_nil) h
  | cons first rest ih =>
    by_cases hfirst : property first
    · have hrest : ¬∀ item ∈ rest, property item := fun hrest =>
        h (List.forall_mem_cons.2 ⟨hfirst, hrest⟩)
      obtain ⟨before, item, after, rfl, hbefore, hitem⟩ := ih hrest
      exact ⟨first :: before, item, after, rfl, List.forall_mem_cons.2 ⟨hfirst, hbefore⟩, hitem⟩
    · exact ⟨[], first, rest, rfl, fun _ hmem => absurd hmem List.not_mem_nil, hfirst⟩

/-- The rule with the names on its right side. A lone `ε` stands for none. -/
def RuleDescription.named (rule : RuleDescription) : NamedRule :=
  ⟨rule.lhs, if Text.words rule.rhs = [epsilonMark] then [] else Text.words rule.rhs⟩

namespace NameSet

variable {set other : NameSet} {name : String}

/-- A test for a name finds the members. -/
theorem contains_iff : set.contains name = true ↔ name ∈ set.names := List.contains_iff_mem

private theorem firstCommon?_eq_none_iff :
    set.firstCommon? other = none ↔ ∀ name ∈ set.names, name ∉ other.names := by
  simp [firstCommon?, contains_iff]

/-- Names are listed in ascending order, so the first common one is the least. -/
theorem firstCommon?_eq_some (hname : name ∈ set.names) (hother : name ∈ other.names)
    (hleast : ∀ common ∈ set.names, common ∈ other.names → name ≤ common) :
    set.firstCommon? other = some name := by
  obtain ⟨before, after, hnames⟩ := List.append_of_mem hname
  have hsorted := hnames ▸ set.sorted
  refine List.find?_eq_some_iff_append.2 ⟨contains_iff.2 hother, before, after, hnames, ?_⟩
  intro smaller hsmaller
  have hlt : smaller < name :=
    (List.pairwise_append.1 hsorted).2.2 smaller hsmaller name List.mem_cons_self
  rw [Bool.not_eq_true', ← Bool.not_eq_true, contains_iff]
  intro hcommon
  have hmem : smaller ∈ set.names := hnames ▸ List.mem_append_left _ hsmaller
  exact absurd hlt (String.not_lt.2 (hleast smaller hmem hcommon))

end NameSet

namespace Description

variable {d : Description} {rule : RuleDescription} {name : String} {e : GrammarError}

/-! ## Consistent descriptions -/

/-- The name is declared as a nonterminal or as a terminal. -/
def Declared (d : Description) (name : String) : Prop :=
  name ∈ d.nonterminals.names ∨ name ∈ d.terminals.names

/-- The marker is not declared, no name is declared twice, and the start symbol is a nonterminal. -/
structure DeclarationsFit (d : Description) : Prop where
  mark : ¬d.Declared epsilonMark
  disjoint : ∀ name ∈ d.nonterminals.names, name ∉ d.terminals.names
  start : d.start ∈ d.nonterminals.names

/-- The left side is a nonterminal. On the right stands the marker alone, or one or more declared
names without the marker. -/
structure RuleFits (d : Description) (rule : RuleDescription) : Prop where
  lhs : rule.lhs ∈ d.nonterminals.names
  rhs : Text.words rule.rhs = [epsilonMark] ∨ Text.words rule.rhs ≠ [] ∧
    epsilonMark ∉ Text.words rule.rhs ∧ ∀ name ∈ Text.words rule.rhs, d.Declared name

/-- The declarations fit together, and the rules fit the declarations. -/
structure Consistent (d : Description) : Prop where
  declarations : d.DeclarationsFit
  rules : ∀ rule ∈ d.rules, d.RuleFits rule

/-! ## Faults in the order in which they are looked for -/

/-- What is wrong with declarations. Each fault supposes that those before it are absent. -/
inductive DeclarationFault (d : Description) : GrammarError → Prop where
  | reserved (hmark : d.Declared epsilonMark) : DeclarationFault d .reservedEpsilon
  | conflict {name : String} (hmark : ¬d.Declared epsilonMark)
      (hnonterminal : name ∈ d.nonterminals.names) (hterminal : name ∈ d.terminals.names)
      (hleast : ∀ common ∈ d.nonterminals.names, common ∈ d.terminals.names → name ≤ common) :
      DeclarationFault d (.conflictingDeclaration name)
  | start (hmark : ¬d.Declared epsilonMark)
      (hdisjoint : ∀ name ∈ d.nonterminals.names, name ∉ d.terminals.names)
      (hstart : d.start ∉ d.nonterminals.names) : DeclarationFault d (.undeclaredStart d.start)

/-- What is wrong with a rule. Each fault supposes that those before it are absent. -/
inductive RuleFault (d : Description) (rule : RuleDescription) : GrammarError → Prop where
  | terminalLhs (hlhs : rule.lhs ∈ d.terminals.names) : RuleFault d rule (.terminalOnLhs rule.lhs)
  | undeclaredLhs (hlhs : ¬d.Declared rule.lhs) :
      RuleFault d rule (.malformedReference rule.lhs rule.lhs)
  | emptyRhs (hlhs : rule.lhs ∈ d.nonterminals.names) (hrhs : Text.words rule.rhs = []) :
      RuleFault d rule (.emptyRhs rule.lhs)
  | misplacedMark (hlhs : rule.lhs ∈ d.nonterminals.names)
      (hmark : epsilonMark ∈ Text.words rule.rhs) (hrhs : Text.words rule.rhs ≠ [epsilonMark]) :
      RuleFault d rule (.misplacedEpsilon rule.lhs)
  | undeclaredName {name : String} {before after : List String}
      (hlhs : rule.lhs ∈ d.nonterminals.names) (hmark : epsilonMark ∉ Text.words rule.rhs)
      (hrhs : Text.words rule.rhs = before ++ name :: after)
      (hbefore : ∀ other ∈ before, d.Declared other) (hname : ¬d.Declared name) :
      RuleFault d rule (.malformedReference rule.lhs name)

/-- The first fault of a description: that of its declarations or, if these fit, that of the first
rule that does not fit. -/
inductive FirstFault (d : Description) : GrammarError → Prop where
  | declaration {e : GrammarError} (hfault : d.DeclarationFault e) : FirstFault d e
  | rule {e : GrammarError} {rule : RuleDescription} {before after : List RuleDescription}
      (hfit : d.DeclarationsFit) (hrules : d.rules = before ++ rule :: after)
      (hbefore : ∀ other ∈ before, d.RuleFits other) (hfault : d.RuleFault rule e) :
      FirstFault d e

private theorem declarationsFit_or_fault (d : Description) :
    d.DeclarationsFit ∨ ∃ e, d.DeclarationFault e := by
  by_cases hmark : d.Declared epsilonMark
  · exact Or.inr ⟨_, .reserved hmark⟩
  by_cases hdisjoint : ∀ name ∈ d.nonterminals.names, name ∉ d.terminals.names
  · by_cases hstart : d.start ∈ d.nonterminals.names
    · exact Or.inl ⟨hmark, hdisjoint, hstart⟩
    · exact Or.inr ⟨_, .start hmark hdisjoint hstart⟩
  · -- The first conflicting name is the least one.
    obtain ⟨before, name, after, hnames, hbefore, hterminal⟩ := exists_first_not hdisjoint
    rw [not_not] at hterminal
    refine Or.inr ⟨_, .conflict hmark (by simp [hnames]) hterminal fun common hcommon hboth => ?_⟩
    rw [hnames, List.mem_append, List.mem_cons] at hcommon
    rcases hcommon with hcommon | rfl | hcommon
    · exact absurd hboth (hbefore common hcommon)
    · exact String.le_refl _
    · have hsorted := (List.pairwise_append.1 (hnames ▸ d.nonterminals.sorted)).2.1
      exact String.not_lt.1 (String.lt_asymm (List.rel_of_pairwise_cons hsorted hcommon))

private theorem ruleFits_or_fault (d : Description) (rule : RuleDescription) :
    d.RuleFits rule ∨ ∃ e, d.RuleFault rule e := by
  by_cases hterminal : rule.lhs ∈ d.terminals.names
  · exact Or.inr ⟨_, .terminalLhs hterminal⟩
  by_cases hlhs : rule.lhs ∈ d.nonterminals.names
  · by_cases hempty : Text.words rule.rhs = []
    · exact Or.inr ⟨_, .emptyRhs hlhs hempty⟩
    by_cases hlone : Text.words rule.rhs = [epsilonMark]
    · exact Or.inl ⟨hlhs, Or.inl hlone⟩
    by_cases hmark : epsilonMark ∈ Text.words rule.rhs
    · exact Or.inr ⟨_, .misplacedMark hlhs hmark hlone⟩
    by_cases hnames : ∀ name ∈ Text.words rule.rhs, d.Declared name
    · exact Or.inl ⟨hlhs, Or.inr ⟨hempty, hmark, hnames⟩⟩
    · obtain ⟨before, name, after, hrhs, hbefore, hname⟩ := exists_first_not hnames
      exact Or.inr ⟨_, .undeclaredName hlhs hmark hrhs hbefore hname⟩
  · exact Or.inr ⟨_, .undeclaredLhs fun hdeclared => hdeclared.elim hlhs hterminal⟩

/-- A description that is not consistent has a first fault. -/
theorem consistent_or_fault (d : Description) : d.Consistent ∨ ∃ e, d.FirstFault e := by
  rcases d.declarationsFit_or_fault with hfit | ⟨e, hfault⟩
  · by_cases hrules : ∀ rule ∈ d.rules, d.RuleFits rule
    · exact Or.inl ⟨hfit, hrules⟩
    · obtain ⟨before, rule, after, hsplit, hbefore, hnot⟩ := exists_first_not hrules
      obtain ⟨e, hfault⟩ := (d.ruleFits_or_fault rule).resolve_left hnot
      exact Or.inr ⟨e, .rule hfit hsplit hbefore hfault⟩
  · exact Or.inr ⟨e, .declaration hfault⟩

/-! ## The checks find the first fault -/

private theorem declares_iff : d.declares name = true ↔ d.Declared name := by
  rw [declares, Bool.or_eq_true, NameSet.contains_iff, NameSet.contains_iff, Declared]

private theorem declarationFault?_of_fit (hfit : d.DeclarationsFit) :
    d.declarationFault? = none := by
  have hmark : ¬d.declares epsilonMark = true := fun h => hfit.mark (declares_iff.1 h)
  rw [declarationFault?, if_neg hmark, NameSet.firstCommon?_eq_none_iff.2 hfit.disjoint]
  exact if_pos (NameSet.contains_iff.2 hfit.start)

private theorem declarationFault?_of_fault (hfault : d.DeclarationFault e) :
    d.declarationFault? = some e := by
  cases hfault with
  | reserved hmark => rw [declarationFault?, if_pos (declares_iff.2 hmark)]
  | conflict hmark hnonterminal hterminal hleast =>
    rw [declarationFault?, if_neg fun h => hmark (declares_iff.1 h),
      NameSet.firstCommon?_eq_some hnonterminal hterminal hleast]
  | start hmark hdisjoint hstart =>
    rw [declarationFault?, if_neg fun h => hmark (declares_iff.1 h),
      NameSet.firstCommon?_eq_none_iff.2 hdisjoint]
    exact if_neg fun h => hstart (NameSet.contains_iff.1 h)

section Rules

variable (hfit : d.DeclarationsFit)
include hfit

/-- For a nonterminal on the left, only the right side is left to be read. -/
theorem readRule_of_lhs (hlhs : rule.lhs ∈ d.nonterminals.names) :
    d.readRule rule = (d.readRhs rule.lhs (Text.words rule.rhs)).map (NamedRule.mk rule.lhs) := by
  have hterminal : ¬d.terminals.contains rule.lhs = true := fun h =>
    hfit.disjoint _ hlhs (NameSet.contains_iff.1 h)
  rw [readRule, if_neg hterminal, if_pos (NameSet.contains_iff.2 hlhs)]

private theorem readRule_of_fits (hrule : d.RuleFits rule) : d.readRule rule = .ok rule.named := by
  rw [readRule_of_lhs hfit hrule.lhs, RuleDescription.named]
  rcases hrule.rhs with hlone | ⟨hne, hmark, hnames⟩
  · simp [hlone, readRhs, Except.map]
  · have hlone : Text.words rule.rhs ≠ [epsilonMark] := fun h => hmark (by simp [h])
    have hfind : (Text.words rule.rhs).find? (fun name => !d.declares name) = none := by
      simpa [declares_iff] using hnames
    simp [readRhs, hlone, hmark, hfind, Except.map]

private theorem readRule_of_fault (hfault : d.RuleFault rule e) : d.readRule rule = .error e := by
  cases hfault with
  | terminalLhs hlhs => rw [readRule, if_pos (NameSet.contains_iff.2 hlhs)]
  | undeclaredLhs hlhs =>
    rw [readRule, if_neg fun h => hlhs (Or.inr (NameSet.contains_iff.1 h)),
      if_neg fun h => hlhs (Or.inl (NameSet.contains_iff.1 h))]
  | emptyRhs hlhs hrhs => rw [readRule_of_lhs hfit hlhs, hrhs, readRhs, Except.map]
  | misplacedMark hlhs hmark hrhs =>
    -- Here and below, `hne` selects the second case of `readRhs`.
    have hne : Text.words rule.rhs ≠ [] := List.ne_nil_of_mem hmark
    rw [readRule_of_lhs hfit hlhs]
    simp [readRhs, hrhs, hmark, Except.map]
  | undeclaredName hlhs hmark hrhs hbefore hname =>
    rename_i name before after
    have hne : Text.words rule.rhs ≠ [] := by simp [hrhs]
    have hlone : Text.words rule.rhs ≠ [epsilonMark] := fun h => hmark (by simp [h])
    have hfind : (Text.words rule.rhs).find? (fun name => !d.declares name) = some name := by
      refine List.find?_eq_some_iff_append.2 ⟨?_, before, after, hrhs, fun other hother => ?_⟩
      · simpa [← declares_iff] using hname
      · simpa [declares_iff] using hbefore other hother
    rw [readRule_of_lhs hfit hlhs]
    simp [readRhs, hlone, hmark, hfind, Except.map]

private theorem readRules_of_fits {rules : List RuleDescription}
    (hrules : ∀ rule ∈ rules, d.RuleFits rule) :
    d.readRules rules = .ok (rules.map RuleDescription.named) := by
  rw [readRules_eq_ok_iff, List.map_map]
  exact List.map_congr_left fun rule hrule => readRule_of_fits hfit (hrules rule hrule)

/-- The first rule that does not fit decides. -/
theorem readRules_of_fault {before after : List RuleDescription}
    (hbefore : ∀ other ∈ before, d.RuleFits other) (hfault : d.RuleFault rule e) :
    d.readRules (before ++ rule :: after) = .error e := by
  induction before with
  | nil =>
    rw [List.nil_append, readRules, readRule_of_fault hfit hfault]
    rfl
  | cons first rest ih =>
    obtain ⟨hfirst, hrest⟩ := List.forall_mem_cons.1 hbefore
    rw [List.cons_append, readRules, readRule_of_fits hfit hfirst, ih hrest]
    rfl

end Rules

/-! ## The grammar needs no second check -/

/-- Builds the grammar without a check of the result. -/
def build (d : Description) : Except GrammarError (Grammar × SymbolTable) :=
  match d.declarationFault? with
  | some e => .error e
  | none => (d.readRules d.rules).map fun rules => (d.grammarWith rules, d.table)

/-- A consistent description is built. -/
theorem build_of_consistent (h : d.Consistent) :
    d.build = .ok (d.grammarWith (d.rules.map RuleDescription.named), d.table) := by
  rw [build, declarationFault?_of_fit h.declarations, readRules_of_fits h.declarations h.rules]
  rfl

/-- A description is rejected for its first fault. -/
theorem build_of_fault (hfault : d.FirstFault e) : d.build = .error e := by
  cases hfault with
  | declaration hfault => rw [build, declarationFault?_of_fault hfault]
  | rule hfit hrules hbefore hfault =>
    rw [build, declarationFault?_of_fit hfit, hrules, readRules_of_fault hfit hbefore hfault]
    rfl

/-- A description builds something exactly if it is consistent. -/
theorem build_eq_ok_iff {result : Grammar × SymbolTable} : d.build = .ok result ↔
    d.Consistent ∧ (d.grammarWith (d.rules.map RuleDescription.named), d.table) = result := by
  constructor
  · intro hresult
    rcases d.consistent_or_fault with hconsistent | ⟨e, hfault⟩
    · rw [build_of_consistent hconsistent] at hresult
      exact ⟨hconsistent, Except.ok.inj hresult⟩
    · rw [build_of_fault hfault] at hresult
      cases hresult
  · rintro ⟨hconsistent, rfl⟩
    exact build_of_consistent hconsistent

/-- A description is rejected exactly with its first fault. -/
theorem build_eq_error_iff : d.build = .error e ↔ d.FirstFault e := by
  refine ⟨fun herror => ?_, build_of_fault⟩
  rcases d.consistent_or_fault with hconsistent | ⟨e', hfault⟩
  · rw [build_of_consistent hconsistent] at herror
    cases herror
  · rw [build_of_fault hfault] at herror
    exact Except.error.inj herror ▸ hfault

private theorem toGrammar_eq_bind (d : Description) :
    d.toGrammar = d.build >>= fun result => (result.1.validate result.2).map fun _ => result := by
  rw [toGrammar, build]
  cases d.declarationFault? with
  | some e => rfl
  | none =>
    cases d.readRules d.rules with
    | error e => rfl
    | ok rules =>
      show ((d.grammarWith rules).validate d.table >>= fun _ => _) = Except.map _ _
      cases (d.grammarWith rules).validate d.table <;> rfl

/-! ## Names and symbols of the grammar -/

section Table

variable {t : SymbolTable}

private theorem foldl_add_eq_internAll (t : SymbolTable) (names : List String) :
    names.foldl SymbolTable.add t = (t.internAll names).2 := by
  induction names generalizing t with
  | nil => rfl
  | cons name rest ih => exact ih (t.add name)

/-- The table lists the names in the order in which they are met. -/
theorem names_table (d : Description) : d.table.names = d.nameOrder.eraseDups := by
  rw [table, foldl_add_eq_internAll, SymbolTable.names_internAll]
  simp [SymbolTable.empty, SymbolTable.names, List.removeAll]

private theorem eraseDups_of_nodup {names : List String} (h : names.Nodup) :
    names.eraseDups = names := by
  induction names with
  | nil => rfl
  | cons first rest ih =>
    obtain ⟨hfirst, hrest⟩ := List.nodup_cons.1 h
    have hfilter : rest.filter (fun name => !name == first) = rest := by
      refine List.filter_eq_self.2 fun name hname => ?_
      simpa using fun heq : name = first => hfirst (heq ▸ hname)
    rw [List.eraseDups_cons, hfilter, ih hrest]

/-- The names of the symbols of consistent declarations: the start symbol, the other nonterminals
and the terminals, each in ascending order. -/
theorem names_table_of_fit (hfit : d.DeclarationsFit) : d.table.names =
    d.start :: (d.nonterminals.names.erase d.start ++ d.terminals.names) := by
  have hnodup (set : NameSet) : set.names.Nodup := set.sorted.imp String.ne_of_lt
  have hothers : d.nonterminals.names.filter (fun name => !name == d.start) =
      d.nonterminals.names.erase d.start :=
    ((hnodup d.nonterminals).erase_eq_filter d.start).symm
  have hterminals : d.terminals.names.filter (fun name => !name == d.start) =
      d.terminals.names := by
    refine List.filter_eq_self.2 fun name hname => ?_
    simpa using fun heq : name = d.start => hfit.disjoint _ hfit.start (heq ▸ hname)
  rw [names_table, nameOrder, List.eraseDups_cons, List.filter_append, hothers, hterminals,
    eraseDups_of_nodup]
  refine List.nodup_append.2 ⟨(hnodup _).erase _, hnodup _, fun name hname other hother heq => ?_⟩
  exact hfit.disjoint name (List.mem_of_mem_erase hname) (heq ▸ hother)

/-- The symbols of a table are made from its names in order. -/
theorem map_intern_names (t : SymbolTable) :
    t.names.map (fun name => (t.intern name).1) = t.symbols := by
  refine List.ext_getElem (by simp [SymbolTable.symbols]) fun i hi hi' => ?_
  rw [List.length_map] at hi
  have hplace : t.names[i]? = some t.names[i] := List.getElem?_eq_getElem hi
  have hnumber : t.numberOf t.names[i] = i := by
    rw [SymbolTable.numberOf, SymbolTable.byName_eq_some_iff.2 hplace, Option.getD_some]
  simp [SymbolTable.symbols, SymbolTable.intern, hnumber]

private theorem ascending_symbols (hsize : t.size ≤ UInt32.size) : Ascending t.symbols := by
  refine List.pairwise_map.2 (List.pairwise_lt_range.imp_of_mem fun {i j} hi hj hlt => ?_)
  rw [List.mem_range] at hi hj
  rwa [Symbol.index_ofIndex_of_lt (by omega), Symbol.index_ofIndex_of_lt (by omega)]

/-- The symbols of some names of a table are listed in the order of the table. -/
theorem toList_ofList_intern {listed : List String} (names : List String)
    (hsize : t.size ≤ UInt32.size) (hlisted : listed.Sublist t.names)
    (hmem : ∀ name, name ∈ listed ↔ name ∈ names) :
    (SymbolSet.ofList (names.map fun name => (t.intern name).1)).toList =
      listed.map fun name => (t.intern name).1 := by
  have hsublist := hlisted.map fun name => (t.intern name).1
  rw [map_intern_names] at hsublist
  have hascending := (ascending_symbols hsize).sublist hsublist
  refine (SymbolSet.ascending_toList _).eq_of_mem_iff hascending fun s => ?_
  rw [SymbolSet.mem_toList, SymbolSet.contains_ofList, List.contains_iff_mem]
  simp only [List.mem_map, hmem]

end Table

section Symbols

variable {rules : List NamedRule} {s : Symbol}

private theorem mem_nonterminals_grammarWith : s ∈ (d.grammarWith rules).nonterminals ↔
    ∃ name ∈ d.nonterminals.names, (d.table.intern name).1 = s := by
  rw [SymbolSet.mem_iff, grammarWith, SymbolSet.contains_ofList, List.contains_iff_mem,
    List.mem_map]

private theorem mem_terminals_grammarWith : s ∈ (d.grammarWith rules).terminals ↔
    ∃ name ∈ d.terminals.names, (d.table.intern name).1 = s := by
  rw [SymbolSet.mem_iff, grammarWith, SymbolSet.contains_ofList, List.contains_iff_mem,
    List.mem_map]

private theorem mem_names_table_of_declared (h : d.Declared name) : name ∈ d.table.names :=
  mem_names_table_of_declares (declares_iff.2 h)

/-- All names on the right of a fitting rule are declared. -/
theorem RuleFits.declared (hrule : d.RuleFits rule) : ∀ name ∈ rule.named.rhs, d.Declared name := by
  intro name hname
  rw [RuleDescription.named] at hname
  rcases hrule.rhs with hlone | ⟨-, hmark, hnames⟩
  · simp [hlone] at hname
  · have hlone : Text.words rule.rhs ≠ [epsilonMark] := fun h => hmark (by simp [h])
    rw [if_neg hlone] at hname
    exact hnames name hname

/-- What fits as a description is valid as a grammar, as long as numbers suffice. -/
theorem validate_grammarWith (h : d.Consistent) (hsize : d.table.size ≤ UInt32.size) :
    (d.grammarWith (d.rules.map RuleDescription.named)).validate d.table = .ok () := by
  have hfit := h.declarations
  have hnonterminal {name : String} (hname : name ∈ d.nonterminals.names) :
      (d.table.intern name).1 ∈ (d.grammarWith (d.rules.map RuleDescription.named)).nonterminals :=
    mem_nonterminals_grammarWith.2 ⟨name, hname, rfl⟩
  refine Grammar.validate_eq_ok_iff.2 ⟨⟨fun s hs hs' => ?_, hnonterminal hfit.start, ?_, ?_⟩, ?_⟩
  · -- A symbol has one name only, so it is not declared twice.
    obtain ⟨name, hname, rfl⟩ := mem_terminals_grammarWith.1 hs
    obtain ⟨other, hother, heq⟩ := mem_nonterminals_grammarWith.1 hs'
    have hnames := congrArg d.table.nameOf heq
    rw [nameOf_intern_table hsize (mem_names_table_of_declared (Or.inl hother)),
      nameOf_intern_table hsize (mem_names_table_of_declared (Or.inr hname))] at hnames
    exact hfit.disjoint other hother (hnames ▸ hname)
  · intro rule hrule
    obtain ⟨_, hnamed, rfl⟩ := List.mem_map.1 hrule
    obtain ⟨description, hdescription, rfl⟩ := List.mem_map.1 hnamed
    exact hnonterminal (h.rules description hdescription).lhs
  · intro rule hrule s hs
    obtain ⟨_, hnamed, rfl⟩ := List.mem_map.1 hrule
    obtain ⟨description, hdescription, rfl⟩ := List.mem_map.1 hnamed
    obtain ⟨name, hname, rfl⟩ := List.mem_map.1 hs
    rcases (h.rules description hdescription).declared name hname with hname | hname
    · exact Or.inr (hnonterminal hname)
    · exact Or.inl (mem_terminals_grammarWith.2 ⟨name, hname, rfl⟩)
  · have hunknown : epsilonMark ∉ d.table.names := by
      rw [names_table, List.mem_eraseDups, nameOrder, List.mem_cons, List.mem_append]
      rintro (heq | hdeclared)
      · exact hfit.mark (Or.inl (heq ▸ hfit.start))
      · exact hfit.mark hdeclared
    rw [Grammar.isTaken, Grammar.declared?, SymbolTable.find?,
      SymbolTable.byName_eq_none_iff.2 hunknown]
    rfl

end Symbols

/-- The last check of the built grammar is redundant. -/
theorem toGrammar_eq_build (hsize : d.table.size ≤ UInt32.size) : d.toGrammar = d.build := by
  rw [toGrammar_eq_bind]
  rcases d.consistent_or_fault with hconsistent | ⟨e, hfault⟩
  · rw [build_of_consistent hconsistent]
    show (Grammar.validate _ _).map _ = _
    rw [validate_grammarWith hconsistent hsize]
    rfl
  · rw [build_of_fault hfault]
    rfl

/-! ## What is built -/

/-- The grammar has the declared names and the rules of the description. Its table numbers the start
symbol first, then the other nonterminals and then the terminals, each in ascending order of names,
and the names of the rules add nothing to it. -/
structure Built (d : Description) (g : Grammar) (t : SymbolTable) : Prop where
  covered : g.CoveredBy t
  valid : g.validate t = .ok ()
  names : t.names = d.start :: (d.nonterminals.names.erase d.start ++ d.terminals.names)
  named : g.named t =
    { start := d.start
      nonterminals := d.start :: d.nonterminals.names.erase d.start
      terminals := d.terminals.names
      rules := d.rules.map RuleDescription.named }
  met : ∀ rule ∈ d.rules, ∀ name ∈ rule.named.names, t.add name = t

private theorem RuleFits.declared_names (hrule : d.RuleFits rule) :
    ∀ name ∈ rule.named.names, d.Declared name :=
  List.forall_mem_cons.2 ⟨Or.inl hrule.lhs, hrule.declared⟩

/-- The symbols of the grammar have the names they were made from. -/
theorem named_grammarWith (h : d.Consistent) (hsize : d.table.size ≤ UInt32.size) :
    (d.grammarWith (d.rules.map RuleDescription.named)).named d.table =
      { start := d.start
        nonterminals := d.start :: d.nonterminals.names.erase d.start
        terminals := d.terminals.names
        rules := d.rules.map RuleDescription.named } := by
  have hfit := h.declarations
  have hname (name : String) (hmem : d.Declared name) :
      d.table.nameOf (d.table.intern name).1 = name :=
    nameOf_intern_table hsize (mem_names_table_of_declared hmem)
  have hmap {names : List String} (hnames : ∀ name ∈ names, d.Declared name) :
      (names.map fun name => (d.table.intern name).1).map d.table.nameOf = names := by
    rw [List.map_map]
    exact (List.map_congr_left fun name hmem => hname name (hnames name hmem)).trans (List.map_id _)
  have hmem (name : String) :
      name ∈ d.start :: d.nonterminals.names.erase d.start ↔ name ∈ d.nonterminals.names :=
    (List.perm_cons_erase hfit.start).mem_iff.symm
  have htable := names_table_of_fit hfit
  have hnonterminals := toList_ofList_intern d.nonterminals.names hsize
    (htable ▸ List.sublist_append_left (d.start :: d.nonterminals.names.erase d.start) _) hmem
  have hterminals := toList_ofList_intern d.terminals.names hsize
    (htable ▸ List.sublist_append_right (d.start :: d.nonterminals.names.erase d.start) _)
    fun _ => Iff.rfl
  rw [Grammar.named, NamedGrammar.mk.injEq]
  refine ⟨hname _ (Or.inl hfit.start), ?_, ?_, ?_⟩
  · exact (congrArg _ hnonterminals).trans (hmap fun name hname => Or.inl ((hmem name).1 hname))
  · exact (congrArg _ hterminals).trans (hmap fun name hname => Or.inr hname)
  · show ((d.rules.map RuleDescription.named).map d.ruleOf).map (Rule.named d.table) = _
    rw [List.map_map]
    refine (List.map_congr_left fun named hnamed => ?_).trans (List.map_id _)
    obtain ⟨description, hdescription, rfl⟩ := List.mem_map.1 hnamed
    refine named_ruleOf hsize fun name hname => declares_iff.2 ?_
    exact (h.rules description hdescription).declared_names name hname

private theorem built_of_consistent (h : d.Consistent) (hsize : d.table.size ≤ UInt32.size) :
    d.Built (d.grammarWith (d.rules.map RuleDescription.named)) d.table where
  covered := coveredBy_of_toGrammar ((toGrammar_eq_build hsize).trans (build_of_consistent h))
  valid := validate_grammarWith h hsize
  names := names_table_of_fit h.declarations
  named := named_grammarWith h hsize
  met rule hrule name hname := SymbolTable.add_of_mem
    (mem_names_table_of_declared ((h.rules rule hrule).declared_names name hname))

/-- A description builds a grammar exactly if it is consistent, and the grammar is the one that it
describes. Otherwise it is rejected with its first fault. The check of the built grammar never
decides. -/
theorem toGrammar_exact (hsize : d.table.size ≤ UInt32.size) :
    ((∃ g t, d.toGrammar = .ok (g, t)) ↔ d.Consistent) ∧
    (∀ g t, d.toGrammar = .ok (g, t) → d.Built g t) ∧
    (∀ e, d.toGrammar = .error e ↔ d.FirstFault e) ∧
    d.toGrammar = d.build := by
  rw [toGrammar_eq_build hsize]
  refine ⟨⟨?_, fun h => ⟨_, _, build_of_consistent h⟩⟩, ?_, fun _ => build_eq_error_iff, rfl⟩
  · rintro ⟨g, t, hresult⟩
    exact (build_eq_ok_iff.1 hresult).1
  · intro g t hresult
    obtain ⟨hconsistent, hresult⟩ := build_eq_ok_iff.1 hresult
    cases hresult
    exact built_of_consistent hconsistent hsize

/-- A start symbol that is not the least name, and two rules that do not fit. The first of these has
two faults. -/
def faulty : Description where
  start := "T"
  nonterminals := .ofList ["T", "S"]
  terminals := .ofList ["b", "a"]
  rules := [⟨"S", "a  T"⟩, ⟨"T", "ε"⟩, ⟨"T", "c ε"⟩, ⟨"b", "a"⟩]

/-- The first fault is reported, and without the faulty rule the grammar is built. -/
theorem toGrammar_faulty_exact :
    faulty.toGrammar = .error (.misplacedEpsilon "T") ∧ faulty.FirstFault (.misplacedEpsilon "T") ∧
      ∃ g t, { faulty with rules := faulty.rules.take 2 }.toGrammar = .ok (g, t) ∧
        t.names = ["T", "S", "a", "b"] ∧ g.namedRules t = [⟨"S", ["a", "T"]⟩, ⟨"T", []⟩] := by
  have herror : faulty.toGrammar = .error (.misplacedEpsilon "T") := rfl
  have hfits : { faulty with rules := faulty.rules.take 2 }.toGrammar.toOption.isSome = true := by
    decide +kernel
  obtain ⟨-, -, hfaults, -⟩ := toGrammar_exact (d := faulty) (by decide +kernel)
  obtain ⟨-, hbuilt, -, -⟩ :=
    toGrammar_exact (d := { faulty with rules := faulty.rules.take 2 }) (by decide +kernel)
  cases hresult : { faulty with rules := faulty.rules.take 2 }.toGrammar with
  | error e =>
    rw [hresult] at hfits
    cases hfits
  | ok result =>
    have hbuilt := hbuilt _ _ hresult
    refine ⟨herror, (hfaults _).1 herror, result.1, result.2, rfl, hbuilt.names, ?_⟩
    exact (congrArg NamedGrammar.rules hbuilt.named).trans (by decide +kernel)

end Description

end Chomsky
