import Chomsky.Proofs.Counters
import Chomsky.Proofs.ParseValues
import Chomsky.Proofs.RelevantLexemes

/-!
# The language of grammar texts

A text can be read exactly if it has no control character and the signs that are read
back from it are those of one or more rules: then the parse of its signs has these rules
as its value. As long as the numbers of its lexemes fit into 32 bits, the signs that are
read back are those that the text is written with.
-/

namespace Chomsky

/-- A set has the names that it was made of. -/
theorem NameSet.mem_ofList {names : List String} {name : String} :
    name ∈ (ofList names).names ↔ name ∈ names := by
  suffices hfold : ∀ set : NameSet, name ∈ (names.foldl insert set).names ↔
      name ∈ set.names ∨ name ∈ names by
    simpa [ofList] using hfold {}
  induction names with
  | nil => simp
  | cons first rest ih =>
    intro set
    rw [List.foldl_cons, ih, insert, mem_insertName, List.mem_cons, or_assoc, or_left_comm]

namespace Bnf

/-! ### Runs over marks -/

section Runs

variable {r next : Recognizer UInt32} {found : List Placed}

/-- Marks are read as the signs among them are scanned, unless one is a control character. -/
theorem readMarks_eq_ok_iff : readMarks r found = .ok next ↔
    (∀ c, .control c ∉ found.map Placed.mark) ∧ r.scanAll (scanned found) = some next := by
  induction found generalizing r with
  | nil => simp [readMarks, scanned, Recognizer.scanAll]
  | cons placed rest ih =>
    obtain ⟨mark, lexeme, place⟩ := placed
    cases mark with
    | control c =>
      rw [readMarks]
      refine iff_of_false (by rintro ⟨⟩) fun h => h.1 c List.mem_cons_self
    | sign kind =>
      have hcontrol : (∀ c, .control c ∉ (⟨.sign kind, lexeme, place⟩ :: rest).map Placed.mark) ↔
          ∀ c, .control c ∉ rest.map Placed.mark := by simp
      have hscanned : scanned (⟨.sign kind, lexeme, place⟩ :: rest) =
          (kind, UInt32.ofNat place) :: scanned rest := rfl
      rw [hcontrol, hscanned, Recognizer.scanAll_cons_eq_some_iff, readMarks]
      cases r.scan kind (UInt32.ofNat place) with
      | none => simp
      | some middle => simpa using ih

end Runs

/-! ### Texts that can be read -/

variable {text name : String} {d : Description}

/-- The signs that are read back from a text are those of the rules. -/
def ReadsAs (text : String) (rules : List RuleText) : Prop :=
  readBack text = (rules.flatMap RuleText.signs).map Sign.leaf

/-- What was read is concluded from the value of the finished parse, if there is a rule in it. -/
theorem conclude_eq_ok_iff {found : List Lexeme} {last : Position} {r : Recognizer UInt32} :
    conclude found last r = .ok d ↔ ∃ tree, r.tree? = some tree ∧
      ∃ rule rest, tree.value (Value.ofSign found.toArray) = .rules (rule :: rest) ∧
        d = describe rule.lhs (rule :: rest) := by
  rw [conclude]
  cases r.tree? with
  | none => simp
  | some tree =>
    simp only [Option.some.injEq, exists_eq_left']
    rcases tree.value (Value.ofSign found.toArray) with _ | (_ | ⟨rule, rest⟩) | _ | _ | _ <;>
      simp [eq_comm]

/-- The first description of rules is one of the first rule. -/
theorem lhs_of_flatMap_descriptions {rule : RuleText} {rest : List RuleText}
    {first : RuleDescription} {others : List RuleDescription}
    (h : (rule :: rest).flatMap RuleText.descriptions = first :: others) :
    first.lhs = rule.lhs := by
  obtain ⟨names, more, hnames⟩ := List.exists_cons_of_ne_nil rule.alternatives_ne_nil
  rw [List.flatMap_cons, RuleText.descriptions, rulesOf, hnames] at h
  cases h
  rfl

/-- A text is read as the value of a parse of its scanned signs, with names looked up by number. -/
theorem parse_eq_ok_iff_exists_tree : parse text = .ok d ↔
    (∀ c, .control c ∉ tokensOf text.toList) ∧
      ∃ tree : Tree UInt32 .grammar, tree.leaves = scanned (marks (lexemes text)) ∧
        ∃ rule rest, tree.value (Value.ofSign (lexemes text).toArray) = .rules (rule :: rest) ∧
          d = describe rule.lhs (rule :: rest) := by
  have hcontrol : (∀ c, .control c ∉ (marks (lexemes text)).map Placed.mark) ↔
      ∀ c, .control c ∉ tokensOf text.toList :=
    forall_congr' fun c => not_congr control_mem_marks_iff
  rw [parse, bind_eq_ok_iff]
  simp only [conclude_eq_ok_iff, readMarks_eq_ok_iff, hcontrol, ← Recognizer.exists_scanAll_iff]
  constructor
  · rintro ⟨r, ⟨hnone, hrun⟩, tree, htree, hvalue⟩
    exact ⟨hnone, tree, ⟨r, hrun, htree⟩, hvalue⟩
  · rintro ⟨hnone, tree, ⟨r, hrun, htree⟩, hvalue⟩
    exact ⟨r, ⟨hnone, hrun⟩, tree, htree, hvalue⟩

/-- Looking up the leaves of a parse of the scanned signs yields the signs that are read back. -/
theorem leaves_map_ofSign {tree : Tree UInt32 .grammar}
    (h : tree.leaves = scanned (marks (lexemes text))) :
    (tree.map (Value.ofSign (lexemes text).toArray)).leaves = readBack text := by
  rw [Tree.leaves_map, h, readBack]
  rfl

/-- Whatever is read back can be looked up. -/
theorem isLookedUp_of_mem_readBack {leaf : Terminal × Value} (h : leaf ∈ readBack text) :
    IsLookedUp leaf := by
  obtain ⟨sign, _, rfl⟩ := List.mem_map.mp h
  exact (lookUp_cases _ sign).imp_right fun ⟨name, hname, _⟩ => ⟨name, hname⟩

/-- A text can be read exactly if it has no control character and the signs that are read back are
those of one or more rules. It is read as what these rules describe. -/
theorem parse_eq_ok_iff : parse text = .ok d ↔
    (∀ c, .control c ∉ tokensOf text.toList) ∧ ∃ rule rest, ReadsAs text (rule :: rest) ∧
      d = describe rule.lhs ((rule :: rest).flatMap RuleText.descriptions) := by
  rw [parse_eq_ok_iff_exists_tree]
  refine and_congr_right fun _ => ⟨?_, ?_⟩
  · rintro ⟨tree, htree, first, others, hvalue, rfl⟩
    have hleaves := leaves_map_ofSign htree
    have hlooked : ∀ leaf ∈ (tree.map (Value.ofSign (lexemes text).toArray)).leaves,
        IsLookedUp leaf := fun leaf hmem => isLookedUp_of_mem_readBack (hleaves ▸ hmem)
    -- The value is none of nothing, so no value was missing at a name.
    have hcases := Tree.value_cases _ hlooked
    rw [Tree.value_map, hvalue, hleaves] at hcases
    obtain ⟨signs, hsigns, rules, hne, rfl, hrules⟩ := hcases.resolve_left fun h => nomatch h.1
    obtain ⟨rule, rest, rfl⟩ := List.exists_cons_of_ne_nil hne
    refine ⟨rule, rest, hsigns, ?_⟩
    rw [← Value.rules.inj hrules, lhs_of_flatMap_descriptions (Value.rules.inj hrules).symm]
  · rintro ⟨rule, rest, hreads, rfl⟩
    obtain ⟨tree, hleaves, hvalue⟩ := evaluates_rules (List.cons_ne_nil rule rest)
    have hback : tree.leaves = readBack text := hleaves.trans hreads.symm
    -- The same parse with the numbers of lexemes in place of values.
    have hkinds : tree.leaves.map Prod.fst = (scanned (marks (lexemes text))).map Prod.fst := by
      rw [hback, readBack, List.map_map]
      rfl
    obtain ⟨numbered, hnumbered⟩ := tree.exists_leaves_eq hkinds
    have htree := Recognizer.tree_unique ((leaves_map_ofSign hnumbered).trans hback.symm)
    obtain ⟨first, others, hfirst⟩ := List.exists_cons_of_ne_nil
      (flatMap_descriptions_ne_nil (List.cons_ne_nil rule rest))
    refine ⟨numbered, hnumbered, first, others, ?_, ?_⟩
    · rw [← Tree.value_map, htree, hvalue, hfirst]
    · rw [hfirst, lhs_of_flatMap_descriptions hfirst]

/-- A text that can be read has no control character, and the signs that are read back are those of
one or more rules. -/
theorem exists_rules_of_parse (h : parse text = .ok d) :
    (∀ c, .control c ∉ tokensOf text.toList) ∧
      ∃ rules : List RuleText, rules ≠ [] ∧ ReadsAs text rules := by
  obtain ⟨hcontrol, rule, rest, hreads, _⟩ := parse_eq_ok_iff.mp h
  exact ⟨hcontrol, _, List.cons_ne_nil rule rest, hreads⟩

/-! ### What the rules of a text describe -/

/-- What a description says of the rules of a text. -/
structure Describes (rules : List RuleText) (d : Description) : Prop where
  /-- Each alternative is a rule, in the order of the text. -/
  rules_eq : d.rules = rules.flatMap RuleText.descriptions
  /-- The first name on the left is the start symbol. -/
  start_eq : rules.head?.map RuleText.lhs = some d.start
  /-- The names on the left are the nonterminals. -/
  nonterminals_iff (name : String) :
    name ∈ d.nonterminals.names ↔ ∃ rule ∈ rules, rule.lhs = name
  /-- All other names except the marker of empty right sides are the terminals. -/
  terminals_iff (name : String) :
    name ∈ d.terminals.names ↔
      (∃ rule ∈ rules, name ∈ rule.alternatives.flatten) ∧ name ≠ epsilonMark ∧
        ∀ rule ∈ rules, rule.lhs ≠ name

private theorem mem_alternativeSigns {alternatives : List (List String)} {names : List String}
    (hnames : names ∈ alternatives) (hname : name ∈ names) :
    .name name ∈ alternativeSigns alternatives := by
  induction alternatives with
  | nil => simp at hnames
  | cons first rest ih =>
    cases rest with
    | nil => simp_all
    | cons second rest =>
      rw [alternativeSigns_cons_cons]
      rcases List.mem_cons.1 hnames with rfl | hrest
      · exact List.mem_append_left _ (List.mem_map_of_mem hname)
      · exact List.mem_append_right _ (List.mem_cons_of_mem _ (ih hrest))

/-- The names of alternatives are signs of the rule. -/
theorem RuleText.name_mem_signs {rule : RuleText} {names : List String}
    (hnames : names ∈ rule.alternatives) (hname : name ∈ names) : .name name ∈ rule.signs := by
  have hmem := mem_alternativeSigns hnames hname
  simp [signs, hmem]

/-- The names that are read back are names among the tokens. -/
theorem ident_mem_of_mem_signs {rules : List RuleText} {rule : RuleText}
    (hreads : ReadsAs text rules) (hrule : rule ∈ rules) (hname : .name name ∈ rule.signs) :
    .ident name ∈ tokensOf text.toList := by
  have hmem : (Sign.name name).leaf ∈ readBack text := by
    rw [ReadsAs] at hreads
    rw [hreads]
    exact List.mem_map_of_mem (List.mem_flatMap.mpr ⟨rule, hrule, hname⟩)
  obtain ⟨sign, _, hsign⟩ := List.mem_map.mp hmem
  rcases lookUp_cases (lexemes text) sign with hnone | ⟨other, hother, hident⟩
  · rw [hsign] at hnone
    cases hnone
  · cases Sign.leaf_injective (hsign.symm.trans hother)
    exact hident

/-- The names that are read back are names of symbols. -/
theorem isName_of_mem_alternatives {rules : List RuleText} {rule : RuleText} {names : List String}
    (hreads : ReadsAs text rules) (hrule : rule ∈ rules)
    (hnames : names ∈ rule.alternatives) (hname : name ∈ names) : IsName name :=
  isName_of_mem_tokensOf
    (ident_mem_of_mem_signs hreads hrule (RuleText.name_mem_signs hnames hname))

section Described

variable {rules : List RuleText}

private theorem mem_map_lhs_descriptions :
    name ∈ (rules.flatMap RuleText.descriptions).map RuleDescription.lhs ↔
      ∃ rule ∈ rules, rule.lhs = name := by
  simp only [RuleText.descriptions, rulesOf, List.map_flatMap, List.map_map, List.mem_flatMap,
    List.mem_map, Function.comp_apply]
  refine exists_congr fun rule => and_congr_right fun _ => ⟨?_, fun hlhs => ?_⟩
  · rintro ⟨_, _, hlhs⟩
    exact hlhs
  · obtain ⟨names, hnames⟩ := List.exists_mem_of_ne_nil _ rule.alternatives_ne_nil
    exact ⟨names, hnames, hlhs⟩

/-- Joining the names of an alternative and taking the words apart changes nothing. -/
theorem flatMap_words_descriptions
    (hnames : ∀ rule ∈ rules, ∀ names ∈ rule.alternatives, ∀ name ∈ names, IsName name) :
    (rules.flatMap RuleText.descriptions).flatMap (fun rule => Text.words rule.rhs) =
      rules.flatMap fun rule => rule.alternatives.flatten := by
  rw [List.flatMap_assoc]
  refine List.flatMap_congr fun rule hrule => ?_
  rw [RuleText.descriptions, rulesOf, List.flatMap_map, ← List.flatMap_id']
  exact List.flatMap_congr fun names hmem => words_intercalate (hnames rule hrule names hmem)

end Described

/-- Rules are described as they are written, as long as every name is one word. -/
theorem describes_describe {rule : RuleText} {rest : List RuleText}
    (hnames : ∀ other ∈ rule :: rest, ∀ names ∈ other.alternatives, ∀ name ∈ names, IsName name) :
    Describes (rule :: rest)
      (describe rule.lhs ((rule :: rest).flatMap RuleText.descriptions)) where
  rules_eq := rfl
  start_eq := rfl
  nonterminals_iff name := by rw [describe, NameSet.mem_ofList, mem_map_lhs_descriptions]
  terminals_iff name := by
    rw [describe, NameSet.mem_ofList, List.mem_filter, flatMap_words_descriptions hnames,
      List.mem_flatMap]
    refine and_congr_right fun _ => ?_
    rw [Bool.and_eq_true, bne_iff_ne, Bool.not_eq_true', NameSet.contains]
    refine and_congr_right fun _ => ?_
    rw [← Bool.not_eq_true, List.contains_iff_mem, NameSet.mem_ofList, mem_map_lhs_descriptions]
    simp

/-- What is read from a text describes the rules that are read back. -/
theorem describes_of_parse {rules : List RuleText} (hreads : ReadsAs text rules)
    (hparse : parse text = .ok d) : Describes rules d := by
  obtain ⟨hcontrol, others, hne, hothers⟩ := exists_rules_of_parse hparse
  cases rules with
  | nil =>
    obtain ⟨rule, rest, rfl⟩ := List.exists_cons_of_ne_nil hne
    cases hothers.symm.trans hreads
  | cons rule rest =>
    rw [parse_eq_ok_iff.mpr ⟨hcontrol, rule, rest, hreads, rfl⟩] at hparse
    cases hparse
    exact describes_describe fun other hother names hnames name hname =>
      isName_of_mem_alternatives hreads hother hnames hname

/-! ### Texts whose lexemes can be counted -/

section Counted

variable (hcount : (lexemes text).length ≤ UInt32.size)
include hcount

/-- As long as the numbers of lexemes fit, the signs of a text are read back. -/
theorem readsAs_iff {rules : List RuleText} (hcontrol : ∀ c, .control c ∉ tokensOf text.toList) :
    ReadsAs text rules ↔ effectiveSigns text = rules.flatMap RuleText.signs := by
  rw [ReadsAs, readBack_eq_map_leaf hcount, signsOf_relevantLexemes hcontrol]
  exact Sign.leaf_injective.list_map.eq_iff

/-- A text without control characters whose signs are those of rules describes these rules. -/
theorem parse_of_effectiveSigns {rule : RuleText} {rest : List RuleText}
    (hcontrol : ∀ c, .control c ∉ tokensOf text.toList)
    (hsigns : effectiveSigns text = (rule :: rest).flatMap RuleText.signs) :
    parse text = .ok (describe rule.lhs ((rule :: rest).flatMap RuleText.descriptions)) :=
  parse_eq_ok_iff.mpr ⟨hcontrol, rule, rest, (readsAs_iff hcount hcontrol).mpr hsigns, rfl⟩

/-- The rules that are read from a text are the value of the one parse of its signs. -/
theorem evaluates_iff_of_parse (hparse : parse text = .ok d) {value : Value} :
    Evaluates .grammar (effectiveSigns text) value ↔ value = .rules d.rules := by
  obtain ⟨hcontrol, rules, hne, hreads⟩ := exists_rules_of_parse hparse
  have hvalue := evaluates_rules hne
  rw [← (readsAs_iff hcount hcontrol).mp hreads, ← (describes_of_parse hreads hparse).rules_eq]
    at hvalue
  constructor
  · exact fun hother => value_unique hother hvalue
  · rintro rfl
    exact hvalue

end Counted

/-- A text can be read exactly if it has no control character and its signs are those of one or
more rules, and then it describes these rules: they are the value of the one parse of its signs. The
text is one on which no counter of 32 bits wraps, as on every text of fewer than `2 ^ 32 - 1`
characters. -/
theorem parse_accepts_exactly (text : String) (hfits : FitsCounters text) :
    ((∃ d, parse text = .ok d) ↔
      (∀ c, .control c ∉ tokensOf text.toList) ∧ ∃ rules : List RuleText, rules ≠ [] ∧
        effectiveSigns text = rules.flatMap RuleText.signs) ∧
    (∀ rules d, effectiveSigns text = rules.flatMap RuleText.signs → parse text = .ok d →
      Describes rules d) ∧
    ∀ d, parse text = .ok d →
      ∀ value, Evaluates .grammar (effectiveSigns text) value ↔ value = .rules d.rules := by
  refine ⟨⟨?_, ?_⟩, ?_, fun d hparse value => evaluates_iff_of_parse hfits.numbers hparse⟩
  · rintro ⟨d, hparse⟩
    obtain ⟨hcontrol, rules, hne, hreads⟩ := exists_rules_of_parse hparse
    exact ⟨hcontrol, rules, hne, (readsAs_iff hfits.numbers hcontrol).mp hreads⟩
  · rintro ⟨hcontrol, rules, hne, hsigns⟩
    obtain ⟨rule, rest, rfl⟩ := List.exists_cons_of_ne_nil hne
    exact ⟨_, parse_of_effectiveSigns hfits.numbers hcontrol hsigns⟩
  · intro rules d hsigns hparse
    have hcontrol := (exists_rules_of_parse hparse).1
    exact describes_of_parse ((readsAs_iff hfits.numbers hcontrol).mpr hsigns) hparse

/-- Line breaks next to bars join lines, also across comments, and repeated stops count once. -/
theorem parse_joined_lines : ∃ d,
    parse "S ::= a |\n  b\n\n;; T ::= t\n  # c\n  | u" = .ok d ∧
      Describes [⟨"S", [["a"], ["b"]], by decide, by decide⟩,
        ⟨"T", [["t"], ["u"]], by decide, by decide⟩] d := by
  have htokens : tokensOf "S ::= a |\n  b\n\n;; T ::= t\n  # c\n  | u".toList =
      [.ident "S", .blank, .arrow, .blank, .ident "a", .blank, .bar, .newline, .blank, .blank,
        .ident "b", .newline, .newline, .semicolon, .semicolon, .blank, .ident "T", .blank, .arrow,
        .blank, .ident "t", .newline, .blank, .blank, .comment, .newline, .blank, .blank, .bar,
        .blank, .ident "u", .endOfText] := by decide +kernel
  have hsigns : effectiveSigns "S ::= a |\n  b\n\n;; T ::= t\n  # c\n  | u" =
      [⟨"S", [["a"], ["b"]], by decide, by decide⟩,
        ⟨"T", [["t"], ["u"]], by decide, by decide⟩].flatMap RuleText.signs := by
    rw [effectiveSigns, htokens]
    decide
  have haccepts := parse_accepts_exactly "S ::= a |\n  b\n\n;; T ::= t\n  # c\n  | u"
    (fitsCounters_of_length (by decide))
  obtain ⟨d, hparse⟩ := haccepts.1.2 ⟨by simp only [htokens]; simp, _, List.cons_ne_nil _ _, hsigns⟩
  exact ⟨d, hparse, haccepts.2.1 _ d hsigns hparse⟩

end Bnf

end Chomsky
