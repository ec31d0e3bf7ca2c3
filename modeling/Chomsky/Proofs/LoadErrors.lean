import Chomsky.Proofs.Building
import Chomsky.Proofs.RoundTrip

/-!
# Why a text that can be read is rejected

The names on the left of a text are its nonterminals, and all others but `ε` are its
terminals. So every name of a rule is declared, no name is declared twice, and no
right side is empty. What can be wrong is the use of `ε`: as a name on the left, or
next to other names on the right.
-/

namespace Chomsky

/-- The marker stands on the right side with at least one more name. -/
def RuleDescription.MisplacesMark (rule : RuleDescription) : Prop :=
  2 ≤ (Text.words rule.rhs).length ∧ epsilonMark ∈ Text.words rule.rhs

namespace Description

/-- The marker is never a left side, and where it stands on the right it stands alone. -/
def MarkStandsAlone (d : Description) : Prop :=
  ∀ rule ∈ d.rules, rule.lhs ≠ epsilonMark ∧ ¬rule.MisplacesMark

/-- How the marker is misused: as a left side or, if it is none, next to other names. In the latter
case the first rule counts that does so. -/
inductive MarkMisuse (d : Description) : GrammarError → Prop where
  | reserved (hlhs : ∃ rule ∈ d.rules, rule.lhs = epsilonMark) : MarkMisuse d .reservedEpsilon
  | misplaced {rule : RuleDescription} {before after : List RuleDescription}
      (hlhs : ∀ rule ∈ d.rules, rule.lhs ≠ epsilonMark) (hrules : d.rules = before ++ rule :: after)
      (hbefore : ∀ other ∈ before, ¬other.MisplacesMark) (hrule : rule.MisplacesMark) :
      MarkMisuse d (.misplacedEpsilon rule.lhs)

private theorem markStandsAlone_or_misuse (d : Description) :
    d.MarkStandsAlone ∨ ∃ e, d.MarkMisuse e := by
  by_cases hlhs : ∃ rule ∈ d.rules, rule.lhs = epsilonMark
  · exact Or.inr ⟨_, .reserved hlhs⟩
  have hlhs : ∀ rule ∈ d.rules, rule.lhs ≠ epsilonMark := fun rule hrule heq =>
    hlhs ⟨rule, hrule, heq⟩
  by_cases hrules : ∀ rule ∈ d.rules, ¬rule.MisplacesMark
  · exact Or.inl fun rule hrule => ⟨hlhs rule hrule, hrules rule hrule⟩
  · obtain ⟨before, rule, after, hsplit, hbefore, hrule⟩ := exists_first_not hrules
    exact Or.inr ⟨_, .misplaced hlhs hsplit hbefore (not_not.1 hrule)⟩

end Description

namespace Bnf

variable {text : String} {d : Description} {rule : RuleDescription}

/-! ### What a text declares -/

section Parsed

variable (hparse : parse text = .ok d)
include hparse

private theorem mem_nonterminals_of_parse {name : String} :
    name ∈ d.nonterminals.names ↔ ∃ rule ∈ d.rules, rule.lhs = name := by
  rw [← (describe_of_parse hparse).1, describe, NameSet.mem_ofList, List.mem_map]

private theorem mem_terminals_of_parse {name : String} :
    name ∈ d.terminals.names ↔ (∃ rule ∈ d.rules, name ∈ Text.words rule.rhs) ∧
      name ≠ epsilonMark ∧ name ∉ d.nonterminals.names := by
  rw [← (describe_of_parse hparse).1, describe, NameSet.mem_ofList, List.mem_filter,
    List.mem_flatMap, Bool.and_eq_true, bne_iff_ne, Bool.not_eq_true', ← Bool.not_eq_true,
    NameSet.contains_iff]

/-- Every alternative of a text has a name. -/
theorem words_ne_nil_of_parse (hrule : rule ∈ d.rules) : Text.words rule.rhs ≠ [] := by
  obtain ⟨-, rules, -, hsigns⟩ := exists_rules_of_parse hparse
  rw [(describes_of_parse hsigns hparse).rules_eq] at hrule
  obtain ⟨ruleText, hmem, hrule⟩ := List.mem_flatMap.1 hrule
  obtain ⟨names, hnames, rfl⟩ := List.mem_map.1 hrule
  have hwords : Text.words (" ".intercalate names) = names := words_intercalate fun name hname =>
    isName_of_mem_alternatives hsigns hmem hnames hname
  rw [hwords]
  rintro rfl
  exact ruleText.nil_not_mem hnames

/-- The names on the right of a rule are declared, except for the marker. -/
theorem declared_of_parse (hrule : rule ∈ d.rules) {name : String}
    (hname : name ∈ Text.words rule.rhs) (hmark : name ≠ epsilonMark) : d.Declared name := by
  by_cases hnonterminal : name ∈ d.nonterminals.names
  · exact Or.inl hnonterminal
  · exact Or.inr ((mem_terminals_of_parse hparse).2 ⟨⟨rule, hrule, hname⟩, hmark, hnonterminal⟩)

/-- The marker is declared exactly if it stands on the left of a rule. -/
theorem declared_mark_iff : d.Declared epsilonMark ↔ ∃ rule ∈ d.rules, rule.lhs = epsilonMark := by
  rw [Description.Declared, mem_nonterminals_of_parse hparse, mem_terminals_of_parse hparse]
  exact or_iff_left fun hterminal => hterminal.2.1 rfl

private theorem declarationsFit_of_parse (hmark : ∀ rule ∈ d.rules, rule.lhs ≠ epsilonMark) :
    d.DeclarationsFit where
  mark := by
    rw [declared_mark_iff hparse]
    rintro ⟨rule, hrule, hlhs⟩
    exact hmark rule hrule hlhs
  disjoint name hnonterminal hterminal :=
    ((mem_terminals_of_parse hparse).1 hterminal).2.2 hnonterminal
  start := by
    have hhead := List.mem_of_head? (describe_of_parse hparse).2
    exact (mem_nonterminals_of_parse hparse).2 (List.mem_map.1 hhead)

/-! ### What can be wrong with a rule -/

private theorem ruleFits_of_parse (hrule : rule ∈ d.rules) (hmark : ¬rule.MisplacesMark) :
    d.RuleFits rule where
  lhs := (mem_nonterminals_of_parse hparse).2 ⟨rule, hrule, rfl⟩
  rhs := by
    have hne := words_ne_nil_of_parse hparse hrule
    by_cases hmem : epsilonMark ∈ Text.words rule.rhs
    · -- The marker is one of less than two names.
      have hlength : (Text.words rule.rhs).length = 1 := by
        have hpos := List.length_pos_iff.2 hne
        have hlt : ¬2 ≤ (Text.words rule.rhs).length := fun hle => hmark ⟨hle, hmem⟩
        omega
      obtain ⟨name, hname⟩ := List.length_eq_one_iff.1 hlength
      rw [hname, List.mem_singleton] at hmem
      exact Or.inl (by rw [hname, hmem])
    · refine Or.inr ⟨hne, hmem, fun name hname => ?_⟩
      exact declared_of_parse hparse hrule hname fun heq => hmem (heq ▸ hname)

private theorem ruleFault_of_parse (hrule : rule ∈ d.rules) (hmark : rule.MisplacesMark) :
    d.RuleFault rule (.misplacedEpsilon rule.lhs) := by
  refine .misplacedMark ((mem_nonterminals_of_parse hparse).2 ⟨rule, hrule, rfl⟩) hmark.2 ?_
  intro hlone
  have hlength := hmark.1
  rw [hlone, List.length_singleton] at hlength
  omega

private theorem consistent_of_parse (hmark : d.MarkStandsAlone) : d.Consistent where
  declarations := declarationsFit_of_parse hparse fun rule hrule => (hmark rule hrule).1
  rules rule hrule := ruleFits_of_parse hparse hrule (hmark rule hrule).2

/-- A misuse of the marker is the first fault, for nothing else can be wrong. -/
theorem firstFault_of_parse {e : GrammarError} (hmisuse : d.MarkMisuse e) : d.FirstFault e := by
  cases hmisuse with
  | reserved hlhs => exact .declaration (.reserved ((declared_mark_iff hparse).2 hlhs))
  | @misplaced rule before after hlhs hrules hbefore hrule =>
    have hmem {other : RuleDescription} (hother : other ∈ before ++ rule :: after) :
        other ∈ d.rules := hrules ▸ hother
    refine .rule (declarationsFit_of_parse hparse hlhs) hrules (fun other hother => ?_) ?_
    · exact ruleFits_of_parse hparse (hmem (List.mem_append_left _ hother)) (hbefore other hother)
    · exact ruleFault_of_parse hparse (hmem (by simp)) hrule

/-! ### Outcomes -/

private theorem load_of_parse (hsize : d.table.size ≤ UInt32.size) :
    (load text).outcome = d.build.mapError .grammar := by
  rw [load, Journaled.outcome_bind, Journaled.outcome_mapError, outcome_journalParse, hparse]
  exact congrArg (Except.mapError LoadError.grammar)
    ((outcome_journalGrammar d).trans (Description.toGrammar_eq_build hsize))

private theorem load_of_misuse {e : GrammarError} (hsize : d.table.size ≤ UInt32.size)
    (hmisuse : d.MarkMisuse e) : (load text).outcome = .error (.grammar e) := by
  rw [load_of_parse hparse hsize, Description.build_of_fault (firstFault_of_parse hparse hmisuse)]
  rfl

private theorem load_of_markStandsAlone (hsize : d.table.size ≤ UInt32.size)
    (hmark : d.MarkStandsAlone) :
    ∃ g t, (load text).outcome = .ok (g, t) := by
  rw [load_of_parse hparse hsize,
    Description.build_of_consistent (consistent_of_parse hparse hmark)]
  exact ⟨_, _, rfl⟩

private theorem load_eq_ok_iff_markStandsAlone (hsize : d.table.size ≤ UInt32.size) :
    (∃ g t, (load text).outcome = .ok (g, t)) ↔ d.MarkStandsAlone := by
  refine ⟨?_, load_of_markStandsAlone hparse hsize⟩
  rintro ⟨g, t, hload⟩
  refine d.markStandsAlone_or_misuse.resolve_right ?_
  rintro ⟨e, hmisuse⟩
  rw [load_of_misuse hparse hsize hmisuse] at hload
  cases hload

private theorem load_eq_error_iff_misuse (hsize : d.table.size ≤ UInt32.size) (e : LoadError) :
    (load text).outcome = .error e ↔ ∃ misuse, d.MarkMisuse misuse ∧ e = .grammar misuse := by
  constructor
  · intro hload
    rcases d.markStandsAlone_or_misuse with hmark | ⟨misuse, hmisuse⟩
    · obtain ⟨g, t, hok⟩ := load_of_markStandsAlone hparse hsize hmark
      rw [hok] at hload
      cases hload
    · rw [load_of_misuse hparse hsize hmisuse] at hload
      exact ⟨misuse, hmisuse, (Except.error.inj hload).symm⟩
  · rintro ⟨misuse, hmisuse, rfl⟩
    exact load_of_misuse hparse hsize hmisuse

end Parsed

private theorem exists_parse_of_load {e : GrammarError}
    (hload : (load text).outcome = .error (.grammar e)) : ∃ d, parse text = .ok d := by
  cases hparse : parse text with
  | ok d => exact ⟨d, rfl⟩
  | error parseError =>
    rw [load, Journaled.outcome_bind, Journaled.outcome_mapError, outcome_journalParse, hparse]
      at hload
    cases hload

/-- A text that can be read is rejected for its first misuse of `ε` and for nothing else. -/
theorem load_rejects_only_misuse (text : String)
    (hsize : ∀ d, parse text = .ok d → d.table.size ≤ UInt32.size) :
    (∀ d, parse text = .ok d →
      ((∃ g t, (load text).outcome = .ok (g, t)) ↔ d.MarkStandsAlone) ∧
      ∀ e, (load text).outcome = .error e ↔ ∃ misuse, d.MarkMisuse misuse ∧ e = .grammar misuse) ∧
    ∀ e, (load text).outcome = .error (.grammar e) →
      e = .reservedEpsilon ∨ ∃ lhs, e = .misplacedEpsilon lhs := by
  refine ⟨fun d hparse => ⟨load_eq_ok_iff_markStandsAlone hparse (hsize d hparse),
    load_eq_error_iff_misuse hparse (hsize d hparse)⟩, fun e hload => ?_⟩
  obtain ⟨d, hparse⟩ := exists_parse_of_load hload
  obtain ⟨misuse, hmisuse, heq⟩ :=
    (load_eq_error_iff_misuse hparse (hsize d hparse) _).1 hload
  cases heq
  cases hmisuse with
  | reserved => exact Or.inl rfl
  | misplaced => exact Or.inr ⟨_, rfl⟩

/-- Of two rules with `ε` next to other names the first one is reported, and a lone `ε` is none of
them. -/
theorem load_crowdedMark : ∃ d, parse "S → ε | T a\nT → b ε c\nS → ε ε" = .ok d ∧
    d.MarkMisuse (.misplacedEpsilon "T") ∧
      (load "S → ε | T a\nT → b ε c\nS → ε ε").outcome =
        .error (.grammar (.misplacedEpsilon "T")) := by
  have hload : (load "S → ε | T a\nT → b ε c\nS → ε ε").outcome =
      .error (.grammar (.misplacedEpsilon "T")) := by
    have hfault : (match (load "S → ε | T a\nT → b ε c\nS → ε ε").outcome with
        | .error e => some e
        | .ok _ => none) = some (.grammar (.misplacedEpsilon "T")) := by decide +kernel
    split at hfault
    · rename_i houtcome
      rw [houtcome, Option.some.inj hfault]
    · cases hfault
  obtain ⟨hparsed, -⟩ := load_rejects_only_misuse "S → ε | T a\nT → b ε c\nS → ε ε"
    fun d hparse => Nat.le_trans (size_table_le hparse) (by decide)
  obtain ⟨d, hparse⟩ := exists_parse_of_load hload
  obtain ⟨misuse, hmisuse, heq⟩ := ((hparsed d hparse).2 _).1 hload
  cases heq
  exact ⟨d, hparse, hmisuse, hload⟩

end Bnf

end Chomsky
