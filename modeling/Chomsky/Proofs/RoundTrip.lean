import Chomsky.Grammar.Printer
import Chomsky.Proofs.Described
import Chomsky.Proofs.PrintedLength
import Mathlib.Data.List.Perm.Subperm

/-!
# Printing and reading again

A grammar that was read from a text is printed with names that the text has, so
the printed text can be read again. The rules on separate lines describe the same
grammar. With the alternatives of each left side on one line, the rules come in
groups, but the declared names stay, and with them the symbol table.
-/

namespace Chomsky

/-! ## Groups -/

/-- Taking the items of each key in turn, in the order of the first items, yields every item as
often as it is there. -/
theorem perm_flatMap_eraseDups {α β : Type} [DecidableEq β] (f : α → β) (items : List α) :
    ((items.map f).eraseDups.flatMap fun key => items.filter fun item => f item = key).Perm
      items := by
  induction hlength : items.length using Nat.strongRecOn generalizing items with
  | ind n ih =>
    cases items with
    | nil => simp
    | cons first rest =>
      have hshorter : (rest.filter fun item => !f item == f first).length < n := by
        have hle := List.length_filter_le (fun item => !f item == f first) rest
        rw [List.length_cons] at hlength
        omega
      have hgroup : (first :: rest).filter (fun item => f item = f first) =
          first :: rest.filter (fun item => f item = f first) :=
        List.filter_cons_of_pos (by simp)
      -- Items of the other keys are found among the items that remain.
      have hothers : ((rest.filter fun item => !f item == f first).map f).eraseDups.flatMap
            (fun key => (first :: rest).filter fun item => f item = key) =
          ((rest.filter fun item => !f item == f first).map f).eraseDups.flatMap
            (fun key => (rest.filter fun item => !f item == f first).filter
              fun item => f item = key) := by
        refine List.flatMap_congr fun key hkey => ?_
        obtain ⟨other, hother, rfl⟩ := List.mem_map.1 (List.mem_eraseDups.1 hkey)
        have hne : f other ≠ f first := by simpa using (List.mem_filter.1 hother).2
        rw [List.filter_cons_of_neg (by simpa using hne.symm), List.filter_filter]
        refine List.filter_congr fun item _ => ?_
        by_cases hitem : f item = f other <;> simp [hitem, hne]
      have hremaining := hothers ▸ ih _ hshorter _ rfl
      rw [List.map_cons, List.eraseDups_cons, List.flatMap_cons, List.filter_map, hgroup,
        List.cons_append]
      refine List.Perm.cons first ((hremaining.append_left _).trans ?_)
      exact List.filter_append_perm (fun item => decide (f item = f first)) rest

namespace Grammar

variable {g : Grammar} {s : Symbol}

/-- The rules in groups with the same left side. The groups come in the order of their first rules,
and the rules of a group keep their order. -/
def groupedRules (g : Grammar) : List Rule :=
  (g.rules.map Rule.lhs).eraseDups.flatMap fun s => g.rules.filter fun rule => rule.lhs = s

/-- Grouping loses and repeats no rule. -/
theorem groupedRules_perm (g : Grammar) : g.groupedRules.Perm g.rules :=
  perm_flatMap_eraseDups Rule.lhs g.rules

private theorem mem_rulesOf {rule : Rule} : rule ∈ g.rulesOf s ↔ rule ∈ g.rules ∧ rule.lhs = s := by
  rw [rulesOf, List.mem_filter, decide_eq_true_eq]

private theorem rulesOf_ne_nil (hs : s ∈ g.leftSides) : g.rulesOf s ≠ [] := by
  obtain ⟨rule, hrule, hlhs⟩ := List.mem_map.1 (List.mem_eraseDups.1 hs)
  exact List.ne_nil_of_mem (mem_rulesOf.2 ⟨hrule, hlhs⟩)

private theorem head?_leftSides (g : Grammar) : g.leftSides.head? = g.rules.head?.map Rule.lhs := by
  rw [leftSides]
  cases g.rules <;> simp [List.eraseDups_cons]

end Grammar

/-- A set of names is determined by its members. -/
theorem NameSet.ext_names {set other : NameSet}
    (h : ∀ name, name ∈ set.names ↔ name ∈ other.names) : set = other := by
  have hnodup (set : NameSet) : set.names.Nodup := set.sorted.imp String.ne_of_lt
  have hperm := (List.perm_ext_iff_of_nodup (hnodup set) (hnodup other)).2 h
  have hnames : set.names = other.names :=
    hperm.eq_of_pairwise (fun _ _ _ _ hlt hgt => absurd hgt (String.lt_asymm hlt)) set.sorted
      other.sorted
  cases set
  cases other
  simp_all

/-! ## Printed rules of a grammar -/

namespace NamedRule

/-- The names of the right side, or `ε` alone if there are none. -/
def rhsNames (rule : NamedRule) : List String :=
  if rule.rhs.isEmpty then [epsilonMark] else rule.rhs

private theorem rhsNames_ne_nil (rule : NamedRule) : rule.rhsNames ≠ [] := by
  unfold rhsNames
  split
  · simp
  · simp_all

private theorem intercalate_rhsNames (rule : NamedRule) :
    " ".intercalate rule.rhsNames = rule.rhsText := by
  unfold rhsNames rhsText
  split
  · simp
  · rfl

end NamedRule

namespace Bnf

variable {text : String} {g : Grammar} {t : SymbolTable} {d : Description}

/-- Rules of one symbol, written as one rule with several alternatives. -/
def RuleText.ofRules (t : SymbolTable) (s : Symbol) (rules : List Rule) (hne : rules ≠ []) :
    RuleText where
  lhs := t.nameOf s
  alternatives := rules.map fun rule => (rule.named t).rhsNames
  alternatives_ne_nil := by simpa using hne
  nil_not_mem hmem := by
    obtain ⟨rule, -, hnil⟩ := List.mem_map.1 hmem
    exact (rule.named t).rhsNames_ne_nil hnil

/-- The printed rules of a grammar, one on each line. -/
def singleTexts (g : Grammar) (t : SymbolTable) : List RuleText :=
  g.rules.map fun rule => .ofRules t rule.lhs [rule] (List.cons_ne_nil _ _)

/-- The printed rules of a grammar, with the alternatives of each left side on one line. -/
def groupTexts (g : Grammar) (t : SymbolTable) : List RuleText :=
  g.leftSides.attach.map fun s => .ofRules t s.1 (g.rulesOf s.1) (Grammar.rulesOf_ne_nil s.2)

private theorem text_ofRules (t : SymbolTable) (s : Symbol) (rules : List Rule) (hne : rules ≠ []) :
    (RuleText.ofRules t s rules hne).text = t.nameOf s ++ " → " ++
      " | ".intercalate (rules.map fun rule => (rule.named t).rhsText) ++ "\n" := by
  simp [RuleText.text, RuleText.ofRules, Function.comp_def, NamedRule.intercalate_rhsNames]

private theorem descriptions_ofRules {s : Symbol} {rules : List Rule} (hne : rules ≠ [])
    (hlhs : ∀ rule ∈ rules, rule.lhs = s) :
    (RuleText.ofRules t s rules hne).descriptions =
      rules.map fun rule => (rule.named t).description := by
  rw [RuleText.descriptions, rulesOf, RuleText.ofRules, List.map_map]
  refine List.map_congr_left fun rule hrule => ?_
  simp [NamedRule.intercalate_rhsNames, NamedRule.description, Rule.named, ← hlhs rule hrule]

private theorem text_eq_join (g : Grammar) (t : SymbolTable) :
    g.text t = String.join ((singleTexts g t).map RuleText.text) := by
  simp [Grammar.text, singleTexts, Grammar.namedRules, Function.comp_def, text_ofRules,
    NamedRule.text, Rule.named]

private theorem groupedText_eq_join (g : Grammar) (t : SymbolTable) :
    g.groupedText t = String.join ((groupTexts g t).map RuleText.text) := by
  simp only [groupTexts, List.map_map, Function.comp_def, text_ofRules]
  exact congrArg String.join List.attach_map_val.symm

private theorem descriptions_singleTexts (g : Grammar) (t : SymbolTable) :
    (singleTexts g t).flatMap RuleText.descriptions =
      g.rules.map fun rule => (rule.named t).description := by
  rw [singleTexts, List.flatMap_map, List.map_eq_flatMap]
  exact List.flatMap_congr fun rule _ => descriptions_ofRules _ (by simp)

private theorem descriptions_groupTexts (g : Grammar) (t : SymbolTable) :
    (groupTexts g t).flatMap RuleText.descriptions =
      g.groupedRules.map fun rule => (rule.named t).description := by
  have hgroup (s : Symbol) (hs : s ∈ g.leftSides) :=
    descriptions_ofRules (t := t) (Grammar.rulesOf_ne_nil hs) fun rule hrule =>
      (Grammar.mem_rulesOf.1 hrule).2
  rw [groupTexts, List.flatMap_map, List.flatMap_subtype hgroup, List.unattach_attach,
    Grammar.groupedRules, List.map_flatMap]
  rfl

/-! ## Loading -/

/-- The events do not matter for what is read. -/
theorem outcome_journalParse (text : String) : (journalParse text).outcome = parse text := by
  rw [journalParse, Journaled.outcome_bind, Journaled.outcome_ofExcept]
  cases parse text <;> rfl

/-- The events do not matter for the grammar. -/
theorem outcome_journalGrammar (d : Description) : d.journalGrammar.outcome = d.toGrammar := by
  rw [Description.journalGrammar, Journaled.outcome_bind, Journaled.outcome_ofExcept]
  cases d.toGrammar <;> rfl

/-- A text yields a grammar exactly if it can be read as a description of that grammar. -/
theorem load_eq_ok_iff : (load text).outcome = .ok (g, t) ↔
    ∃ d, parse text = .ok d ∧ d.toGrammar = .ok (g, t) := by
  rw [load, Journaled.outcome_bind, Journaled.outcome_mapError, outcome_journalParse]
  simp only [Journaled.outcome_mapError, outcome_journalGrammar]
  cases parse text with
  | error e => simp [Except.mapError, bind, Except.bind]
  | ok d => cases hgrammar : d.toGrammar <;> simp [Except.mapError, bind, Except.bind, hgrammar]

section Loaded

variable (hparse : parse text = .ok d)
include hparse

/-- What is read is determined by its rules, the first of which is one for the start symbol. -/
theorem describe_of_parse : describe d.start d.rules = d ∧
    (d.rules.map RuleDescription.lhs).head? = some d.start := by
  obtain ⟨_, rule, rest, _, rfl⟩ := parse_eq_ok_iff.1 hparse
  obtain ⟨first, others, hfirst⟩ := List.exists_cons_of_ne_nil
    (flatMap_descriptions_ne_nil (List.cons_ne_nil rule rest))
  refine ⟨rfl, ?_⟩
  rw [describe, hfirst]
  exact congrArg some (lhs_of_flatMap_descriptions hfirst)

/-- The names that a text declares are names among its tokens. -/
theorem ident_mem_of_mem_nameOrder {name : String} (h : name ∈ d.nameOrder) :
    .ident name ∈ tokensOf text.toList := by
  obtain ⟨-, rules, -, hreads⟩ := exists_rules_of_parse hparse
  have hdescribes := describes_of_parse hreads hparse
  have hleft {rule : RuleText} (hrule : rule ∈ rules) : .ident rule.lhs ∈ tokensOf text.toList :=
    ident_mem_of_mem_signs hreads hrule List.mem_cons_self
  rw [Description.nameOrder, List.mem_cons, List.mem_append] at h
  rcases h with rfl | hnonterminal | hterminal
  · obtain ⟨rule, hhead, hlhs⟩ := Option.map_eq_some_iff.1 hdescribes.start_eq
    exact hlhs ▸ hleft (List.mem_of_head? hhead)
  · obtain ⟨rule, hrule, rfl⟩ := (hdescribes.nonterminals_iff name).1 hnonterminal
    exact hleft hrule
  · obtain ⟨⟨rule, hrule, hmem⟩, -⟩ := (hdescribes.terminals_iff name).1 hterminal
    obtain ⟨names, hnames, hname⟩ := List.mem_flatten.1 hmem
    exact ident_mem_of_mem_signs hreads hrule (RuleText.name_mem_signs hnames hname)

/-- The table of a text has no more names than the text has characters. -/
theorem size_table_le : d.table.size ≤ text.length := by
  have hnodup : (Token.endOfText :: d.table.names.map Token.ident).Nodup := by
    rw [List.nodup_cons]
    refine ⟨by simp, d.table.nodup_names.map fun _ _ heq => Token.ident.inj heq⟩
  have hsubset : Token.endOfText :: d.table.names.map Token.ident ⊆ tokensOf text.toList := by
    refine List.cons_subset.2 ⟨List.mem_of_getLast? (getLast?_tokensOf _), ?_⟩
    intro token htoken
    obtain ⟨name, hname, rfl⟩ := List.mem_map.1 htoken
    exact ident_mem_of_mem_nameOrder hparse (Description.mem_names_table.1 hname)
  have hlength := Nat.le_trans (hnodup.subperm hsubset).length_le (length_tokensOf_le text.toList)
  rw [List.length_cons, List.length_map, String.length_toList] at hlength
  exact Nat.le_of_succ_le_succ hlength

/-- The names on the right side of a rule are separated by single spaces. -/
theorem spaced_of_parse {description : RuleDescription} (h : description ∈ d.rules) :
    description.Spaced := by
  obtain ⟨-, rules, -, hreads⟩ := exists_rules_of_parse hparse
  rw [(describes_of_parse hreads hparse).rules_eq] at h
  obtain ⟨rule, hrule, hmem⟩ := List.mem_flatMap.1 h
  obtain ⟨names, hnames, rfl⟩ := List.mem_map.1 hmem
  rw [RuleDescription.Spaced, words_intercalate]
  exact fun name hname => isName_of_mem_alternatives hreads hrule hnames hname

end Loaded

/-! ## Printed grammars are read back -/

/-- The order of rules and repetitions do not matter for the declared names. -/
theorem describe_of_mem_iff {start : String} {rules others : List RuleDescription}
    (h : ∀ rule, rule ∈ others ↔ rule ∈ rules) :
    describe start others = { describe start rules with rules := others } := by
  have hleft : NameSet.ofList (others.map RuleDescription.lhs) =
      NameSet.ofList (rules.map RuleDescription.lhs) :=
    NameSet.ext_names fun name => by simp only [NameSet.mem_ofList, List.mem_map, h]
  rw [describe, describe, hleft]
  congr 1
  refine NameSet.ext_names fun name => ?_
  simp only [NameSet.mem_ofList, List.mem_filter, List.mem_flatMap, h]

section Printed

variable (hparse : parse text = .ok d) (hgrammar : d.toGrammar = .ok (g, t))
  (hsize : t.size ≤ UInt32.size)
include hparse hgrammar hsize

/-- The rules of the grammar are described as in the text. -/
theorem map_description_rules :
    g.rules.map (fun rule => (rule.named t).description) = d.rules := by
  rw [← Description.map_description_namedRules hgrammar hsize fun _ => spaced_of_parse hparse,
    Grammar.namedRules, List.map_map]
  rfl

/-- The first rule is one for the start symbol. -/
theorem map_lhs_head?_rules : g.rules.head?.map (fun rule => t.nameOf rule.lhs) = some d.start := by
  have hhead := (describe_of_parse hparse).2
  rw [← map_description_rules hparse hgrammar hsize, List.map_map, List.head?_map] at hhead
  exact hhead

/-- The names of the rules of the grammar were read from the text. -/
theorem isName_of_mem_names {rule : Rule} (hrule : rule ∈ g.rules) {name : String}
    (hname : name ∈ (rule.named t).names) : IsName name := by
  have hspaced : ∀ description ∈ d.rules, description.Spaced := fun _ => spaced_of_parse hparse
  obtain ⟨hread, -⟩ := Description.readRule_named hgrammar hsize hspaced hrule
  have hmem : (rule.named t).description ∈ d.rules :=
    map_description_rules hparse hgrammar hsize ▸ List.mem_map_of_mem hrule
  have hdeclared := (Description.readRule_eq_ok (hspaced _ hmem) hread).2 name hname
  exact isName_of_mem_tokensOf (ident_mem_of_mem_nameOrder hparse
    (Description.mem_names_table.1 (Description.mem_names_table_of_declares hdeclared)))

/-- The rules of the grammar are printed with names that can be read again. -/
theorem legible_ofRules {s : Symbol} {rules : List Rule} (hne : rules ≠ [])
    (hrules : ∀ rule ∈ rules, rule ∈ g.rules) (hlhs : ∀ rule ∈ rules, rule.lhs = s) :
    (RuleText.ofRules t s rules hne).Legible := by
  have hname (rule : Rule) (hrule : rule ∈ rules) {name : String}
      (hname : name ∈ (rule.named t).names) : IsName name :=
    isName_of_mem_names hparse hgrammar hsize (hrules rule hrule) hname
  constructor
  · obtain ⟨rule, hrule⟩ := List.exists_mem_of_ne_nil _ hne
    exact hlhs rule hrule ▸ hname rule hrule List.mem_cons_self
  · intro names hnames name hmem
    obtain ⟨rule, hrule, rfl⟩ := List.mem_map.1 hnames
    unfold NamedRule.rhsNames at hmem
    split at hmem
    · obtain rfl := List.mem_singleton.1 hmem
      exact ⟨by decide, by decide⟩
    · exact hname rule hrule (List.mem_cons_of_mem _ hmem)

/-- Every printed rule can be read as a rule, whether it stands alone or with others. -/
theorem legible_printed :
    (∀ text ∈ singleTexts g t, text.Legible) ∧ ∀ text ∈ groupTexts g t, text.Legible := by
  constructor
  · intro text htext
    obtain ⟨rule, hrule, rfl⟩ := List.mem_map.1 htext
    exact legible_ofRules hparse hgrammar hsize _ (by simpa using hrule) (by simp)
  · intro text htext
    obtain ⟨s, hs, rfl⟩ := List.mem_map.1 htext
    exact legible_ofRules hparse hgrammar hsize _
      (fun rule hrule => (Grammar.mem_rulesOf.1 hrule).1)
      fun rule hrule => (Grammar.mem_rulesOf.1 hrule).2

/-- The first printed rule is one for the start symbol. -/
theorem head?_printed : (singleTexts g t).head?.map RuleText.lhs = some d.start ∧
    (groupTexts g t).head?.map RuleText.lhs = some d.start := by
  have hhead := map_lhs_head?_rules hparse hgrammar hsize
  have hlhs : (groupTexts g t).map RuleText.lhs = g.leftSides.map t.nameOf := by
    rw [groupTexts, List.map_map]
    exact List.attach_map_val (f := t.nameOf)
  constructor
  · rw [singleTexts, List.head?_map, Option.map_map]
    exact hhead
  · rw [← List.head?_map, hlhs, List.head?_map, Grammar.head?_leftSides, Option.map_map]
    exact hhead

/-- The rules on separate lines are read as the same description. -/
theorem parse_text (hcount : (lexemes (g.text t)).length ≤ UInt32.size) :
    parse (g.text t) = .ok d := by
  rw [text_eq_join] at hcount ⊢
  rw [parse_join (legible_printed hparse hgrammar hsize).1 (head?_printed hparse hgrammar hsize).1
    hcount, descriptions_singleTexts, map_description_rules hparse hgrammar hsize,
    (describe_of_parse hparse).1]

/-- The alternatives on one line for each left side are read as the same description with the rules
in groups. -/
theorem parse_groupedText (hcount : (lexemes (g.groupedText t)).length ≤ UInt32.size) :
    parse (g.groupedText t) =
      .ok { d with rules := g.groupedRules.map fun rule : Rule => (rule.named t).description } := by
  have hmem (description : RuleDescription) :
      description ∈ g.groupedRules.map (fun rule => (rule.named t).description) ↔
        description ∈ d.rules := by
    rw [← map_description_rules hparse hgrammar hsize]
    exact (g.groupedRules_perm.map _).mem_iff
  rw [groupedText_eq_join] at hcount ⊢
  rw [parse_join (legible_printed hparse hgrammar hsize).2 (head?_printed hparse hgrammar hsize).2
    hcount, descriptions_groupTexts, describe_of_mem_iff hmem, (describe_of_parse hparse).1]

/-- What is printed is no longer than the rules of the text on separate lines. -/
theorem length_printed_le {printed : String} (h : printed ∈ [g.text t, g.groupedText t]) :
    printed.length ≤ (d.rules.map printedLength).sum := by
  rw [← map_description_rules hparse hgrammar hsize]
  simp only [List.mem_cons, List.not_mem_nil, or_false] at h
  rcases h with rfl | rfl
  · rw [text_eq_join, ← descriptions_singleTexts]
    exact length_join_le _
  · have hperm := g.groupedRules_perm.map fun rule : Rule => (rule.named t).description
    rw [groupedText_eq_join, ← (hperm.map printedLength).sum_eq, ← descriptions_groupTexts]
    exact length_join_le _

/-- What is printed of a short text has fewer than `2 ^ 32` characters. -/
theorem length_printed_lt {printed : String} (h : printed ∈ [g.text t, g.groupedText t])
    (hshort : text.length < 2 ^ 15) : printed.length < UInt32.size := by
  have hle := Nat.le_trans (length_printed_le hparse hgrammar hsize h)
    (sum_printedLength_le_of_parse hparse)
  have hbound : (text.length + 1) * (2 * text.length + 5) ≤ 2 ^ 15 * (2 ^ 16 + 3) :=
    Nat.mul_le_mul (by omega) (by omega)
  exact Nat.lt_of_le_of_lt (Nat.le_trans hle hbound) (by decide)

/-- Printed texts of fewer than `2 ^ 32` characters can be counted. -/
theorem fitsCounters_printed {printed : String} (h : printed ∈ [g.text t, g.groupedText t])
    (hlength : printed.length < UInt32.size) : FitsCounters printed := by
  have hlegible := legible_printed hparse hgrammar hsize
  have hhead := head?_printed hparse hgrammar hsize
  have hne {rules : List RuleText} (hhead : rules.head?.map RuleText.lhs = some d.start) :
      rules ≠ [] := by
    rintro rfl
    cases hhead
  simp only [List.mem_cons, List.not_mem_nil, or_false] at h
  rcases h with rfl | rfl
  · rw [text_eq_join] at hlength ⊢
    exact fitsCounters_join (hne hhead.1) hlegible.1 hlength
  · rw [groupedText_eq_join] at hlength ⊢
    exact fitsCounters_join (hne hhead.2) hlegible.2 hlength

end Printed

/-- A grammar that was read from a text is the same after printing and reading again. Printed with
one line for each left side it is the same except for the order of its rules. The printed text is
one on which no counter of 32 bits wraps, as on all that have fewer than `2 ^ 32` characters, and
so on all that are printed of texts of fewer than `2 ^ 15` characters. -/
theorem load_printed (hload : (load text).outcome = .ok (g, t))
    (hlength : text.length < UInt32.size) :
    (FitsCounters (g.text t) → (load (g.text t)).outcome = .ok (g, t)) ∧
      (FitsCounters (g.groupedText t) →
        (load (g.groupedText t)).outcome = .ok (g.withRules g.groupedRules, t)) ∧
      g.groupedRules.Perm g.rules ∧
      ∀ printed ∈ [g.text t, g.groupedText t],
        text.length < 2 ^ 15 ∨ printed.length < UInt32.size → FitsCounters printed := by
  obtain ⟨d, hparse, hgrammar⟩ := load_eq_ok_iff.1 hload
  have htable : d.table = t := by
    obtain ⟨-, -, -, -, htable, -⟩ := Description.toGrammar_eq_ok_iff.1 hgrammar
    exact htable
  have hsize : t.size ≤ UInt32.size :=
    Nat.le_trans (htable ▸ size_table_le hparse) (Nat.le_of_lt hlength)
  refine ⟨fun hfits => ?_, fun hfits => ?_, g.groupedRules_perm, fun printed hprinted hshort => ?_⟩
  · exact load_eq_ok_iff.2 ⟨d, parse_text hparse hgrammar hsize hfits.numbers, hgrammar⟩
  · refine load_eq_ok_iff.2 ⟨_, parse_groupedText hparse hgrammar hsize hfits.numbers, ?_⟩
    exact Description.toGrammar_withRules hgrammar hsize (fun _ => spaced_of_parse hparse)
      fun rule hrule => g.groupedRules_perm.mem_iff.1 hrule
  · refine fitsCounters_printed hparse hgrammar hsize hprinted ?_
    exact hshort.elim (length_printed_lt hparse hgrammar hsize hprinted) id

/-- Parts of arrows in names, `ε` and interleaved left sides survive. -/
theorem load_printed_interleaved : ∃ g t,
    (load "S ::= a: S -b | ε ; T → t\nS->T").outcome = .ok (g, t) ∧
      g.text t = "S → a: S -b\nS → ε\nT → t\nS → T\n" ∧
      g.groupedText t = "S → a: S -b | ε | T\nT → t\n" ∧
      (load (g.text t)).outcome = .ok (g, t) ∧
      (load (g.groupedText t)).outcome = .ok (g.withRules g.groupedRules, t) ∧
      g.groupedRules.Perm g.rules := by
  have hprinted : ((load "S ::= a: S -b | ε ; T → t\nS->T").outcome.toOption.map
      fun result => (result.1.text result.2, result.1.groupedText result.2)) =
        some ("S → a: S -b\nS → ε\nT → t\nS → T\n", "S → a: S -b | ε | T\nT → t\n") := by
    decide +kernel
  cases hload : (load "S ::= a: S -b | ε ; T → t\nS->T").outcome with
  | error e =>
    rw [hload] at hprinted
    cases hprinted
  | ok result =>
    rw [hload] at hprinted
    obtain ⟨htext, hgrouped⟩ := Prod.mk.inj (Option.some.inj hprinted)
    obtain ⟨hsingle, hgroups, hperm, hfits⟩ := load_printed hload (by decide)
    refine ⟨result.1, result.2, rfl, htext, hgrouped, hsingle ?_, hgroups ?_, hperm⟩
    · exact hfits _ (by simp) (Or.inl (by decide))
    · exact hfits _ (by simp) (Or.inl (by decide))

end Bnf

end Chomsky
