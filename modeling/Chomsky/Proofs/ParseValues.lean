import Chomsky.Proofs.Layout
import Chomsky.Proofs.Trees
import Mathlib.Data.List.Induction

/-!
# Values of parses

A rule is written as a name, an arrow, alternatives of one or more names with bars
between them, and a stop. Every parse of signs is one of rules, and has the
descriptions of these rules as its value; and there is such a parse whenever the signs
are those of rules. So the evaluation of a parse fails only if a value is missing at one
of its names.
-/

namespace Chomsky.Bnf

/-! ### Rules as they are written -/

/-- A rule as it is written, with one or more alternatives of one or more names. -/
structure RuleText where
  lhs : String
  alternatives : List (List String)
  alternatives_ne_nil : alternatives ≠ []
  nil_not_mem : [] ∉ alternatives

/-- The signs of alternatives with bars between them. -/
def alternativeSigns (alternatives : List (List String)) : List Sign :=
  [Sign.bar].intercalate (alternatives.map fun names => names.map Sign.name)

namespace RuleText

/-- The signs that a rule is written with. -/
def signs (rule : RuleText) : List Sign :=
  .name rule.lhs :: .arrow :: (alternativeSigns rule.alternatives ++ [.stop])

/-- The rules that are described: one for each alternative. -/
def descriptions (rule : RuleText) : List RuleDescription := rulesOf rule.lhs rule.alternatives

end RuleText

/-- A single alternative has no bars. -/
@[simp]
theorem alternativeSigns_singleton (names : List String) :
    alternativeSigns [names] = names.map Sign.name := by
  simp [alternativeSigns]

/-- A bar comes after every alternative but the last. -/
@[simp]
theorem alternativeSigns_cons_cons (names others : List String) (rest : List (List String)) :
    alternativeSigns (names :: others :: rest) =
      names.map Sign.name ++ .bar :: alternativeSigns (others :: rest) := by
  simp [alternativeSigns, List.intercalate_cons_cons]

/-- One more alternative comes after a bar. -/
theorem alternativeSigns_concat {alternatives : List (List String)} (hne : alternatives ≠ [])
    (names : List String) :
    alternativeSigns (alternatives ++ [names]) =
      alternativeSigns alternatives ++ .bar :: names.map Sign.name := by
  induction alternatives with
  | nil => exact absurd rfl hne
  | cons first rest ih =>
    cases rest with
    | nil => simp
    | cons second rest =>
      have hrest := ih (List.cons_ne_nil _ _)
      rw [List.cons_append] at hrest
      rw [List.cons_append, List.cons_append, alternativeSigns_cons_cons,
        alternativeSigns_cons_cons, hrest, List.append_assoc, List.cons_append]

/-- Every rule has an alternative, and so a description. -/
theorem flatMap_descriptions_ne_nil {rules : List RuleText} (hne : rules ≠ []) :
    rules.flatMap RuleText.descriptions ≠ [] := by
  obtain ⟨rule, rest, rfl⟩ := List.exists_cons_of_ne_nil hne
  simp [RuleText.descriptions, rulesOf, rule.alternatives_ne_nil]

/-! ### The value of a parse -/

variable {signs : List Sign} {value value' : Value} {category : Category}

/-- The signs have a parse with the value. -/
def Evaluates (category : Category) (signs : List Sign) (value : Value) : Prop :=
  ∃ tree : Tree Value category,
    tree.leaves = signs.map Sign.leaf ∧ tree.value (fun _ value => value) = value

/-- What the signs of a category are, and which value they should have. -/
def Denotes (signs : List Sign) (value : Value) : Category → Prop
  | .grammar => ∃ rules : List RuleText, rules ≠ [] ∧ signs = rules.flatMap RuleText.signs ∧
      value = .rules (rules.flatMap RuleText.descriptions)
  | .rule => ∃ rule : RuleText, signs = rule.signs ∧ value = .rules rule.descriptions
  | .alternatives => ∃ alternatives : List (List String), alternatives ≠ [] ∧ [] ∉ alternatives ∧
      signs = alternativeSigns alternatives ∧ value = .alternatives alternatives
  | .alternative => ∃ names : List String, names ≠ [] ∧ signs = names.map Sign.name ∧
      value = .names names

/-- The value at a leaf is missing, or it is the text of a name. -/
def IsLookedUp (leaf : Terminal × Value) : Prop :=
  leaf.2 = .nothing ∨ ∃ name, leaf = (Sign.name name).leaf

/-- Every sign is a leaf that can be looked up. -/
theorem isLookedUp_leaf (sign : Sign) : IsLookedUp sign.leaf := by
  cases sign with
  | name text => exact Or.inr ⟨text, rfl⟩
  | arrow => exact Or.inl rfl
  | bar => exact Or.inl rfl
  | stop => exact Or.inl rfl

/-- The value at a name is missing, or it is the text of the name. -/
theorem IsLookedUp.name_cases (h : IsLookedUp (.name, value)) :
    value = .nothing ∨ ∃ name, value = .name name := by
  rcases h with h | ⟨name, h⟩
  · exact Or.inl h
  · exact Or.inr ⟨name, congrArg Prod.snd h⟩

/-- Signs other than names have no value. -/
theorem IsLookedUp.eq_nothing {kind : Terminal} (h : IsLookedUp (kind, value))
    (hkind : kind ≠ .name) : value = .nothing := by
  rcases h with h | ⟨name, h⟩
  · exact h
  · exact absurd (congrArg Prod.fst h) hkind

section Productions

open Value (combine)

variable {others : List Sign} {name : String}

/-- One more rule comes after the rules so far. -/
theorem Denotes.nextRule (h : Denotes signs value .grammar) (h' : Denotes others value' .rule) :
    Denotes (signs ++ others) (combine 2 [value, value']) .grammar := by
  obtain ⟨rules, hne, rfl, rfl⟩ := h
  obtain ⟨rule, rfl, rfl⟩ := h'
  refine ⟨rules ++ [rule], by simp, by simp, ?_⟩
  rw [List.flatMap_append, List.flatMap_singleton]
  rfl

/-- A single rule is a grammar. -/
theorem Denotes.firstRule (h : Denotes signs value .rule) :
    Denotes signs (combine 3 [value]) .grammar := by
  obtain ⟨rule, rfl, rfl⟩ := h
  refine ⟨[rule], by simp, by simp, ?_⟩
  rw [List.flatMap_singleton]
  rfl

/-- Alternatives are the right side of a rule. -/
theorem Denotes.rule (h : Denotes signs value .alternatives) :
    Denotes (.name name :: .arrow :: (signs ++ [.stop]))
      (combine 4 [.name name, .nothing, value, .nothing]) .rule := by
  obtain ⟨alternatives, hne, hnil, rfl, rfl⟩ := h
  exact ⟨⟨name, alternatives, hne, hnil⟩, rfl, rfl⟩

/-- One more alternative comes after a bar. -/
theorem Denotes.nextAlternative (h : Denotes signs value .alternatives)
    (h' : Denotes others value' .alternative) :
    Denotes (signs ++ .bar :: others) (combine 5 [value, .nothing, value']) .alternatives := by
  obtain ⟨alternatives, hne, hnil, rfl, rfl⟩ := h
  obtain ⟨names, hnames, rfl, rfl⟩ := h'
  refine ⟨alternatives ++ [names], by simp, ?_, (alternativeSigns_concat hne names).symm, rfl⟩
  simpa [hnil] using Ne.symm hnames

/-- A single alternative needs no bar. -/
theorem Denotes.firstAlternative (h : Denotes signs value .alternative) :
    Denotes signs (combine 6 [value]) .alternatives := by
  obtain ⟨names, hnames, rfl, rfl⟩ := h
  exact ⟨[names], by simp, by simpa using Ne.symm hnames, by simp, rfl⟩

/-- One more name comes after the names so far. -/
theorem Denotes.nextName (h : Denotes signs value .alternative) :
    Denotes (signs ++ [.name name]) (combine 7 [value, .name name]) .alternative := by
  obtain ⟨names, _, rfl, rfl⟩ := h
  exact ⟨names ++ [name], by simp, by simp, rfl⟩

/-- A single name is an alternative. -/
theorem denotes_firstName (name : String) :
    Denotes [.name name] (combine 8 [.name name]) .alternative :=
  ⟨[name], by simp, rfl, rfl⟩

end Productions

/-- A parse has no value, for want of one at some name, or its leaves are signs that denote its
value. -/
theorem Tree.value_cases (tree : Tree Value category) (h : ∀ leaf ∈ tree.leaves, IsLookedUp leaf) :
    (tree.value (fun _ value => value) = .nothing ∧ (.name, .nothing) ∈ tree.leaves) ∨
      ∃ signs, tree.leaves = signs.map Sign.leaf ∧
        Denotes signs (tree.value fun _ value => value) category := by
  induction tree with
  | nextRule before last ihbefore ihlast =>
    obtain ⟨hfirst, hlast⟩ := List.forall_mem_append.mp h
    rcases ihbefore hfirst with ⟨hvalue, hmem⟩ | ⟨signs, hsigns, hdenotes⟩
    · exact Or.inl ⟨by rw [value, hvalue]; rfl, List.mem_append_left _ hmem⟩
    rcases ihlast hlast with ⟨hvalue, hmem⟩ | ⟨others, hothers, hnew⟩
    · obtain ⟨rules, _, _, hrules⟩ := hdenotes
      exact Or.inl ⟨by rw [value, hvalue, hrules]; rfl, List.mem_append_right _ hmem⟩
    · refine Or.inr ⟨signs ++ others, ?_, hdenotes.nextRule hnew⟩
      rw [leaves, hsigns, hothers, List.map_append]
  | firstRule first ih =>
    rcases ih h with ⟨hvalue, hmem⟩ | ⟨signs, hsigns, hdenotes⟩
    · exact Or.inl ⟨by rw [value, hvalue]; rfl, hmem⟩
    · exact Or.inr ⟨signs, hsigns, hdenotes.firstRule⟩
  | rule lhs arrow right stop ih =>
    obtain ⟨hlhs, hrest⟩ := List.forall_mem_cons.mp h
    obtain ⟨harrow, htail⟩ := List.forall_mem_cons.mp hrest
    obtain ⟨hright, hstop⟩ := List.forall_mem_append.mp htail
    obtain rfl := harrow.eq_nothing (by decide)
    obtain rfl := (List.forall_mem_singleton.mp hstop).eq_nothing (by decide)
    rcases hlhs.name_cases with rfl | ⟨name, rfl⟩
    · exact Or.inl ⟨rfl, List.mem_cons_self⟩
    rcases ih hright with ⟨hvalue, hmem⟩ | ⟨signs, hsigns, hdenotes⟩
    · exact Or.inl ⟨by rw [value, hvalue]; rfl, by simp [leaves, hmem]⟩
    · refine Or.inr ⟨_, ?_, hdenotes.rule⟩
      simp [leaves, hsigns, Sign.leaf, Sign.kind, Sign.value]
  | nextAlternative before bar last ihbefore ihlast =>
    obtain ⟨hfirst, htail⟩ := List.forall_mem_append.mp h
    obtain ⟨hbar, hlast⟩ := List.forall_mem_cons.mp htail
    obtain rfl := hbar.eq_nothing (by decide)
    rcases ihbefore hfirst with ⟨hvalue, hmem⟩ | ⟨signs, hsigns, hdenotes⟩
    · exact Or.inl ⟨by rw [value, hvalue]; rfl, List.mem_append_left _ hmem⟩
    rcases ihlast hlast with ⟨hvalue, hmem⟩ | ⟨others, hothers, hnew⟩
    · obtain ⟨alternatives, _, _, _, hright⟩ := hdenotes
      exact Or.inl ⟨by rw [value, hvalue, hright]; rfl, by simp [leaves, hmem]⟩
    · refine Or.inr ⟨_, ?_, hdenotes.nextAlternative hnew⟩
      simp [leaves, hsigns, hothers, Sign.leaf, Sign.kind, Sign.value]
  | firstAlternative first ih =>
    rcases ih h with ⟨hvalue, hmem⟩ | ⟨signs, hsigns, hdenotes⟩
    · exact Or.inl ⟨by rw [value, hvalue]; rfl, hmem⟩
    · exact Or.inr ⟨signs, hsigns, hdenotes.firstAlternative⟩
  | nextName before last ih =>
    obtain ⟨hfirst, hlast⟩ := List.forall_mem_append.mp h
    rcases ih hfirst with ⟨hvalue, hmem⟩ | ⟨signs, hsigns, hdenotes⟩
    · exact Or.inl ⟨by rw [value, hvalue]; rfl, List.mem_append_left _ hmem⟩
    rcases (List.forall_mem_singleton.mp hlast).name_cases with rfl | ⟨name, rfl⟩
    · obtain ⟨names, _, _, hnames⟩ := hdenotes
      exact Or.inl ⟨by rw [value, hnames]; rfl, by simp [leaves]⟩
    · refine Or.inr ⟨_, ?_, hdenotes.nextName⟩
      simp [leaves, hsigns, Sign.leaf, Sign.kind, Sign.value]
  | firstName first =>
    rcases (List.forall_mem_singleton.mp h).name_cases with rfl | ⟨name, rfl⟩
    · exact Or.inl ⟨rfl, List.mem_singleton_self _⟩
    · exact Or.inr ⟨[.name name], rfl, denotes_firstName name⟩

/-- Every parse has the value that its signs should have. -/
theorem denotes_of_evaluates (h : Evaluates category signs value) :
    Denotes signs value category := by
  obtain ⟨tree, hleaves, rfl⟩ := h
  have hlooked : ∀ leaf ∈ tree.leaves, IsLookedUp leaf := by
    rw [hleaves]
    exact List.forall_mem_map.mpr fun sign _ => isLookedUp_leaf sign
  rcases tree.value_cases hlooked with ⟨_, hmem⟩ | ⟨others, hothers, hdenotes⟩
  · rw [hleaves] at hmem
    obtain ⟨sign, _, hsign⟩ := List.mem_map.mp hmem
    cases sign <;> cases hsign
  · rw [hleaves] at hothers
    rwa [Sign.leaf_injective.list_map hothers]

/-! ### Every sentence has a parse -/

/-- One or more names have a parse as an alternative. -/
theorem evaluates_names {names : List String} (hne : names ≠ []) :
    Evaluates .alternative (names.map Sign.name) (.names names) := by
  induction names using List.reverseRecOn with
  | nil => exact absurd rfl hne
  | append_singleton names name ih =>
    by_cases hnames : names = []
    · subst hnames
      exact ⟨.firstName (.name name), rfl, rfl⟩
    · obtain ⟨before, hbefore, hvalue⟩ := ih hnames
      refine ⟨.nextName before (.name name), ?_, ?_⟩
      · simp [Tree.leaves, hbefore, Sign.leaf, Sign.kind, Sign.value]
      · rw [Tree.value, hvalue]
        rfl

/-- Alternatives have a parse if none of them is empty. -/
theorem evaluates_alternatives {alternatives : List (List String)} (hne : alternatives ≠ [])
    (hnil : [] ∉ alternatives) :
    Evaluates .alternatives (alternativeSigns alternatives) (.alternatives alternatives) := by
  induction alternatives using List.reverseRecOn with
  | nil => exact absurd rfl hne
  | append_singleton alternatives names ih =>
    rw [List.mem_append, not_or] at hnil
    have hnames : names ≠ [] := by
      rintro rfl
      simp at hnil
    obtain ⟨last, hlast, hnew⟩ := evaluates_names hnames
    by_cases halternatives : alternatives = []
    · subst halternatives
      refine ⟨.firstAlternative last, by simpa [Tree.leaves] using hlast, ?_⟩
      rw [Tree.value, hnew]
      rfl
    · obtain ⟨before, hbefore, hvalue⟩ := ih halternatives hnil.1
      refine ⟨.nextAlternative before .nothing last, ?_, ?_⟩
      · rw [alternativeSigns_concat halternatives]
        simp [Tree.leaves, hbefore, hlast, Sign.leaf, Sign.kind, Sign.value]
      · rw [Tree.value, hvalue, hnew]
        rfl

/-- The signs of a rule have a parse. -/
theorem evaluates_rule (rule : RuleText) :
    Evaluates .rule rule.signs (.rules rule.descriptions) := by
  obtain ⟨right, hright, hvalue⟩ :=
    evaluates_alternatives rule.alternatives_ne_nil rule.nil_not_mem
  refine ⟨.rule (.name rule.lhs) .nothing right .nothing, ?_, ?_⟩
  · simp [Tree.leaves, RuleText.signs, hright, Sign.leaf, Sign.kind, Sign.value]
  · rw [Tree.value, hvalue]
    rfl

/-- The signs of one or more rules have a parse. -/
theorem evaluates_rules {rules : List RuleText} (hne : rules ≠ []) :
    Evaluates .grammar (rules.flatMap RuleText.signs)
      (.rules (rules.flatMap RuleText.descriptions)) := by
  induction rules using List.reverseRecOn with
  | nil => exact absurd rfl hne
  | append_singleton rules rule ih =>
    rw [List.flatMap_append, List.flatMap_append, List.flatMap_singleton, List.flatMap_singleton]
    obtain ⟨last, hlast, hnew⟩ := evaluates_rule rule
    by_cases hrules : rules = []
    · subst hrules
      refine ⟨.firstRule last, hlast, ?_⟩
      rw [Tree.value, hnew]
      rfl
    · obtain ⟨before, hbefore, hvalue⟩ := ih hrules
      refine ⟨.nextRule before last, ?_, ?_⟩
      · rw [Tree.leaves, hbefore, hlast, List.map_append]
      · rw [Tree.value, hvalue, hnew]
        rfl

/-- Signs have a parse exactly if they are those of one or more rules, and its value is what these
rules describe. -/
theorem evaluates_grammar_iff :
    Evaluates .grammar signs value ↔ ∃ rules : List RuleText, rules ≠ [] ∧
      signs = rules.flatMap RuleText.signs ∧
        value = .rules (rules.flatMap RuleText.descriptions) := by
  constructor
  · exact denotes_of_evaluates
  · rintro ⟨rules, hne, rfl, rfl⟩
    exact evaluates_rules hne

/-- The evaluation of a parse does not fail, and yields at least one rule. -/
theorem exists_rules_of_evaluates (h : Evaluates .grammar signs value) :
    ∃ first rest, value = .rules (first :: rest) := by
  obtain ⟨rules, hne, _, rfl⟩ := evaluates_grammar_iff.mp h
  obtain ⟨first, rest, hrules⟩ := List.exists_cons_of_ne_nil (flatMap_descriptions_ne_nil hne)
  exact ⟨first, rest, by rw [hrules]⟩

/-- Signs have one parse at most, and so one value. -/
theorem value_unique (h : Evaluates .grammar signs value) (h' : Evaluates .grammar signs value') :
    value = value' := by
  obtain ⟨tree, hleaves, rfl⟩ := h
  obtain ⟨other, hothers, rfl⟩ := h'
  rw [Recognizer.tree_unique (hleaves.trans hothers.symm)]

end Chomsky.Bnf
