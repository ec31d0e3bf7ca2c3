import Chomsky.Description
import Chomsky.Proofs.WellFormed

/-!
# Grammars of descriptions

The symbol table of a description lists the declared names, so every symbol of its
grammar has the name it was made from. The rules of the grammar, written with
names again, are therefore the rules of the description. Any choice of them, in
any order, describes the grammar that has the corresponding rules.
-/

namespace Chomsky

/-- The rule with its right side as a text. -/
def NamedRule.description (rule : NamedRule) : RuleDescription := ⟨rule.lhs, rule.rhsText⟩

/-- The words of the right side are separated by single spaces. -/
def RuleDescription.Spaced (rule : RuleDescription) : Prop :=
  " ".intercalate (Text.words rule.rhs) = rule.rhs

namespace Description

variable {d : Description} {g : Grammar} {t : SymbolTable} {name lhs : String}

/-! ## Names and symbols -/

private theorem mem_names_foldl_add {names : List String} {t : SymbolTable} :
    name ∈ (names.foldl SymbolTable.add t).names ↔ name ∈ t.names ∨ name ∈ names := by
  induction names generalizing t with
  | nil => simp
  | cons first rest ih =>
    rw [List.foldl_cons, ih, SymbolTable.mem_names_add, List.mem_cons, or_assoc]

/-- The table lists the declared names and the start symbol. -/
theorem mem_names_table : name ∈ d.table.names ↔ name ∈ d.nameOrder := by
  rw [table, mem_names_foldl_add]
  exact or_iff_right List.not_mem_nil

/-- Declared names are listed in the table. -/
theorem mem_names_table_of_declares (h : d.declares name = true) : name ∈ d.table.names := by
  rw [declares, Bool.or_eq_true, NameSet.contains, NameSet.contains, List.contains_iff_mem,
    List.contains_iff_mem] at h
  exact mem_names_table.2 (List.mem_cons_of_mem _ (List.mem_append.2 h))

/-- As long as numbers suffice, the symbol of a listed name has that name. -/
theorem nameOf_intern_table (hsize : d.table.size ≤ UInt32.size) (h : name ∈ d.table.names) :
    d.table.nameOf (d.table.intern name).1 = name := by
  have hplace := SymbolTable.getElem?_numberOf_of_mem h
  have hlt : d.table.numberOf name < d.table.size := (List.getElem?_eq_some_iff.1 hplace).1
  rw [SymbolTable.intern, SymbolTable.nameOf,
    Symbol.index_ofIndex_of_lt (Nat.lt_of_lt_of_le hlt hsize), ← SymbolTable.getElem?_names,
    hplace, Option.getD_some]

/-- The rule with the symbols that the table gives to its names. -/
def ruleOf (d : Description) (rule : NamedRule) : Rule :=
  ⟨(d.table.intern rule.lhs).1, rule.rhs.map fun name => (d.table.intern name).1⟩

/-- The symbols of a rule have the names that it was made from. -/
theorem named_ruleOf {rule : NamedRule} (hsize : d.table.size ≤ UInt32.size)
    (hdeclared : ∀ name ∈ rule.names, d.declares name = true) :
    (d.ruleOf rule).named d.table = rule := by
  have hname (name : String) (hmem : name ∈ rule.names) :
      d.table.nameOf (d.table.intern name).1 = name :=
    nameOf_intern_table hsize (mem_names_table_of_declares (hdeclared name hmem))
  have hrhs : (rule.rhs.map fun name => (d.table.intern name).1).map d.table.nameOf = rule.rhs := by
    rw [List.map_map]
    exact (List.map_congr_left fun name hmem => hname name (List.mem_cons_of_mem _ hmem)).trans
      (List.map_id _)
  rw [Rule.named, ruleOf, hname rule.lhs List.mem_cons_self, hrhs]

/-! ## Rules -/

private theorem readRhs_eq_ok {names rhs : List String} (h : d.readRhs lhs names = .ok rhs) :
    names = [epsilonMark] ∧ rhs = [] ∨
      names ≠ [] ∧ rhs = names ∧ ∀ name ∈ names, d.declares name = true := by
  unfold readRhs at h
  repeat' split at h
  all_goals simp_all

/-- The text of a right side that was read is the text it was read from. -/
theorem rhsText_of_readRhs {description : RuleDescription} {rhs : List String}
    (hspaced : description.Spaced)
    (h : d.readRhs lhs (Text.words description.rhs) = .ok rhs) :
    NamedRule.rhsText ⟨lhs, rhs⟩ = description.rhs := by
  unfold RuleDescription.Spaced at hspaced
  rcases readRhs_eq_ok h with ⟨hwords, rfl⟩ | ⟨hne, rfl, -⟩
  · rw [← hspaced, hwords]
    rfl
  · simp [NamedRule.rhsText, hne, hspaced]

/-- A rule that was read has the same text, and all its names are declared. -/
theorem readRule_eq_ok {description : RuleDescription} {rule : NamedRule}
    (hspaced : description.Spaced) (h : d.readRule description = .ok rule) :
    rule.description = description ∧ ∀ name ∈ rule.names, d.declares name = true := by
  unfold readRule at h
  split at h
  · cases h
  · split at h
    · rename_i hlhs
      cases hread : d.readRhs description.lhs (Text.words description.rhs) with
      | error e => simp [hread, Except.map] at h
      | ok rhs =>
        obtain rfl : ⟨description.lhs, rhs⟩ = rule := by simpa [hread, Except.map] using h
        refine ⟨?_, List.forall_mem_cons.2 ⟨by simp [declares, hlhs], ?_⟩⟩
        · rw [NamedRule.description, rhsText_of_readRhs hspaced hread]
        · rcases readRhs_eq_ok hread with ⟨-, rfl⟩ | ⟨-, rfl, hdeclared⟩
          · exact fun _ hmem => absurd hmem List.not_mem_nil
          · exact hdeclared
    · cases h

/-- Rules are read one by one. -/
theorem readRules_eq_ok_iff {descriptions : List RuleDescription} {rules : List NamedRule} :
    d.readRules descriptions = .ok rules ↔
      descriptions.map d.readRule = rules.map Except.ok := by
  induction descriptions generalizing rules with
  | nil => cases rules <;> simp [readRules]
  | cons description rest ih =>
    simp only [readRules, bind_eq_ok_iff, List.map_cons, ih]
    cases rules <;> simp [pure, Except.pure]

private theorem exists_readRule_of_readRules {descriptions : List RuleDescription}
    {rules : List NamedRule} {rule : NamedRule} (h : d.readRules descriptions = .ok rules)
    (hrule : rule ∈ rules) : ∃ description ∈ descriptions, d.readRule description = .ok rule := by
  have hmem : Except.ok rule ∈ descriptions.map d.readRule :=
    readRules_eq_ok_iff.1 h ▸ List.mem_map_of_mem hrule
  exact List.mem_map.1 hmem

/-- The rules that were read have the same texts. -/
theorem map_description_of_readRules {descriptions : List RuleDescription}
    {rules : List NamedRule} (hspaced : ∀ description ∈ descriptions, description.Spaced)
    (h : d.readRules descriptions = .ok rules) :
    rules.map NamedRule.description = descriptions := by
  rw [readRules_eq_ok_iff] at h
  induction descriptions generalizing rules with
  | nil =>
    obtain rfl : rules = [] := by simpa using h.symm
    rfl
  | cons description rest ih =>
    obtain ⟨rule, others, rfl, hrule, hothers⟩ := List.map_eq_cons_iff.1 h.symm
    have hfirst := (readRule_eq_ok (hspaced description List.mem_cons_self) hrule.symm).1
    rw [List.map_cons, hfirst,
      ih (fun other hmem => hspaced other (List.mem_cons_of_mem _ hmem)) hothers.symm]

/-- A description determines a grammar exactly if nothing is wrong with its declarations, its rules
and the result. -/
theorem toGrammar_eq_ok_iff : d.toGrammar = .ok (g, t) ↔
    d.declarationFault? = none ∧ ∃ rules, d.readRules d.rules = .ok rules ∧
      d.grammarWith rules = g ∧ d.table = t ∧ g.validate t = .ok () := by
  unfold toGrammar
  cases d.declarationFault? with
  | some e => simp
  | none =>
    simp only [bind_eq_ok_iff, pure, Except.pure, Except.ok.injEq, Prod.mk.injEq, true_and]
    refine exists_congr fun rules => and_congr_right fun _ => ?_
    constructor
    · rintro ⟨_, hvalid, rfl, rfl⟩
      exact ⟨rfl, rfl, hvalid⟩
    · rintro ⟨rfl, rfl, hvalid⟩
      exact ⟨(), hvalid, rfl, rfl⟩

/-- The table of a description covers the symbols that are made from listed names. -/
theorem covers_intern_table (h : name ∈ d.table.names) :
    d.table.Covers (d.table.intern name).1 := by
  have hcovers := d.table.covers_intern name
  have hsize : (d.table.intern name).2.size = d.table.size := by
    rw [SymbolTable.intern, ← SymbolTable.length_names, SymbolTable.names_add_of_mem h,
      SymbolTable.length_names]
  rwa [SymbolTable.Covers, hsize] at hcovers

/-- The table of a description covers its grammar. -/
theorem coveredBy_of_toGrammar (hgrammar : d.toGrammar = .ok (g, t)) : g.CoveredBy t := by
  obtain ⟨-, rules, -, rfl, rfl, hvalid⟩ := toGrammar_eq_ok_iff.1 hgrammar
  have hwell := (Grammar.validate_eq_ok_iff.1 hvalid).1
  have hdeclared {names : List String} (hnames : ∀ name ∈ names, name ∈ d.nameOrder) {s : Symbol}
      (hs : s ∈ SymbolSet.ofList (names.map fun name => (d.table.intern name).1)) :
      d.table.Covers s := by
    rw [SymbolSet.mem_iff, SymbolSet.contains_ofList, List.contains_iff_mem, List.mem_map] at hs
    obtain ⟨name, hname, rfl⟩ := hs
    exact covers_intern_table (mem_names_table.2 (hnames name hname))
  have hnonterminals : ∀ s ∈ (d.grammarWith rules).nonterminals, d.table.Covers s := fun s hs =>
    hdeclared (fun name hname => List.mem_cons_of_mem _ (List.mem_append_left _ hname)) hs
  have hterminals : ∀ s ∈ (d.grammarWith rules).terminals, d.table.Covers s := fun s hs =>
    hdeclared (fun name hname => List.mem_cons_of_mem _ (List.mem_append_right _ hname)) hs
  exact ⟨hnonterminals _ hwell.start, hnonterminals, hterminals, fun rule hrule =>
    ⟨hnonterminals _ (hwell.lhs rule hrule), fun s hs =>
      (hwell.rhs rule hrule s hs).elim (hterminals s) (hnonterminals s)⟩⟩

/-! ## Rules of the grammar -/

section OfGrammar

variable (hgrammar : d.toGrammar = .ok (g, t)) (hsize : t.size ≤ UInt32.size)
  (hspaced : ∀ description ∈ d.rules, description.Spaced)
include hgrammar hsize hspaced

/-- The symbols of the rules that were read have the names they were made from. -/
theorem exists_readRules : ∃ rules, d.readRules d.rules = .ok rules ∧
    g.rules = rules.map d.ruleOf ∧ ∀ rule ∈ rules, (d.ruleOf rule).named t = rule := by
  obtain ⟨-, rules, hread, rfl, rfl, -⟩ := toGrammar_eq_ok_iff.1 hgrammar
  refine ⟨rules, hread, rfl, fun rule hrule => named_ruleOf hsize ?_⟩
  obtain ⟨description, hdescription, hok⟩ := exists_readRule_of_readRules hread hrule
  exact (readRule_eq_ok (hspaced description hdescription) hok).2

/-- Each rule of the grammar was read from its own description. -/
theorem readRule_named {rule : Rule} (hrule : rule ∈ g.rules) :
    d.readRule (rule.named t).description = .ok (rule.named t) ∧
      d.ruleOf (rule.named t) = rule := by
  obtain ⟨rules, hread, hrules, hnamed⟩ := exists_readRules hgrammar hsize hspaced
  obtain ⟨named, hmem, rfl⟩ := List.mem_map.1 (hrules ▸ hrule)
  obtain ⟨description, hdescription, hok⟩ := exists_readRule_of_readRules hread hmem
  rw [hnamed named hmem, (readRule_eq_ok (hspaced description hdescription) hok).1]
  exact ⟨hok, rfl⟩

/-- The rules of the grammar are described as in the description. -/
theorem map_description_namedRules : (g.namedRules t).map NamedRule.description = d.rules := by
  obtain ⟨rules, hread, hrules, hnamed⟩ := exists_readRules hgrammar hsize hspaced
  have hnames : g.namedRules t = rules := by
    rw [Grammar.namedRules, hrules, List.map_map]
    exact (List.map_congr_left hnamed).trans (List.map_id _)
  rw [hnames, map_description_of_readRules hspaced hread]

/-- Some of the rules, in any order, describe the grammar with these rules. -/
theorem toGrammar_withRules {rules : List Rule} (hrules : ∀ rule ∈ rules, rule ∈ g.rules) :
    { d with rules := rules.map fun rule : Rule => (rule.named t).description }.toGrammar =
      .ok (g.withRules rules, t) := by
  have hread (rule : Rule) (hrule : rule ∈ rules) :=
    readRule_named hgrammar hsize hspaced (hrules rule hrule)
  have hruleOf : (rules.map (Rule.named t)).map d.ruleOf = rules := by
    rw [List.map_map]
    exact (List.map_congr_left fun rule hrule => (hread rule hrule).2).trans (List.map_id _)
  obtain ⟨hdeclarations, named, -, rfl, rfl, hvalid⟩ := toGrammar_eq_ok_iff.1 hgrammar
  obtain ⟨hwell, htaken⟩ := Grammar.validate_eq_ok_iff.1 hvalid
  refine toGrammar_eq_ok_iff.2
    ⟨hdeclarations, rules.map (Rule.named d.table), readRules_eq_ok_iff.2 ?_, ?_, rfl, ?_⟩
  · rw [List.map_map, List.map_map]
    exact List.map_congr_left fun rule hrule => (hread rule hrule).1
  · exact congrArg (d.grammarWith named).withRules hruleOf
  · refine Grammar.validate_eq_ok_iff.2 ⟨⟨hwell.disjoint, hwell.start, ?_, ?_⟩, htaken⟩
    · exact fun rule hrule => hwell.lhs rule (hrules rule hrule)
    · exact fun rule hrule => hwell.rhs rule (hrules rule hrule)

end OfGrammar

end Description

end Chomsky
