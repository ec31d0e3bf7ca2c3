import Chomsky.Proofs.PrintedRules
import Mathlib.Algebra.BigOperators.Group.List.Basic
import Mathlib.Algebra.GroupWithZero.Nat

/-!
# How long printed rules are

A printed rule takes no more characters than a line for each of its alternatives would
take. The names of a text are no longer than the text, and there are no more of them than
it has characters, so what is printed of the rules of a text grows at most as the square
of its length.
-/

namespace Chomsky.Bnf

/-- The number of characters of a line with the rule alone. -/
def printedLength (rule : RuleDescription) : Nat := rule.lhs.length + rule.rhs.length + 4

variable {names : List String} {alternatives : List (List String)} {rules : List RuleText}
  {lhs text : String} {n : Nat} {d : Description}

/-! ### Lines and alternatives -/

private theorem sum_rulesOf_cons (lhs : String) (names : List String)
    (rest : List (List String)) :
    ((rulesOf lhs (names :: rest)).map printedLength).sum =
      lhs.length + (" ".intercalate names).length + 4 +
        ((rulesOf lhs rest).map printedLength).sum := rfl

private theorem length_alternatives_le (lhs : String) (hne : alternatives ≠ []) :
    lhs.length + (" | ".intercalate (alternatives.map (" ".intercalate ·))).length + 4 ≤
      ((rulesOf lhs alternatives).map printedLength).sum := by
  induction alternatives with
  | nil => exact absurd rfl hne
  | cons names rest ih =>
    cases rest with
    | nil => simp [rulesOf, printedLength]
    | cons others rest =>
      have hrest := ih (List.cons_ne_nil _ _)
      have hsplit :
          (" | ".intercalate ((names :: others :: rest).map (" ".intercalate ·))).length =
            (" ".intercalate names).length + 3 +
              (" | ".intercalate ((others :: rest).map (" ".intercalate ·))).length := by
        rw [List.map_cons, List.map_cons, String.intercalate_cons_cons, String.length_append,
          String.length_append]
        rfl
      rw [sum_rulesOf_cons, hsplit]
      omega

/-- A rule on one line is no longer than its alternatives on separate lines. -/
theorem length_text_le (rule : RuleText) :
    rule.text.length ≤ (rule.descriptions.map printedLength).sum := by
  have hle := length_alternatives_le rule.lhs rule.alternatives_ne_nil
  have harrow : " → ".length = 3 := by decide
  have hline : "\n".length = 1 := by decide
  rw [RuleText.text, String.length_append, String.length_append, String.length_append, harrow,
    hline, RuleText.descriptions]
  omega

/-- Printed rules are no longer than their alternatives on separate lines. -/
theorem length_join_le (rules : List RuleText) :
    (String.join (rules.map RuleText.text)).length ≤
      ((rules.flatMap RuleText.descriptions).map printedLength).sum := by
  induction rules with
  | nil => simp
  | cons rule rest ih =>
    rw [List.map_cons, String.join_cons, String.length_append, List.flatMap_cons, List.map_append,
      List.sum_append]
    exact Nat.add_le_add (length_text_le rule) ih

/-! ### Names and signs -/

private theorem length_names_le (hnames : ∀ name ∈ names, name.length ≤ n) :
    (" ".intercalate names).length ≤ names.length * (n + 1) := by
  induction names with
  | nil => simp
  | cons name rest ih =>
    obtain ⟨hname, hothers⟩ := List.forall_mem_cons.mp hnames
    have hrest := ih hothers
    rw [List.length_cons, Nat.add_one_mul]
    cases rest with
    | nil =>
      rw [String.intercalate_singleton]
      omega
    | cons other others =>
      have hspace : " ".length = 1 := by decide
      rw [String.intercalate_cons_cons, String.length_append, String.length_append, hspace]
      omega

/-- A line is bounded by the number of its names, of which there is at least one. -/
theorem length_line_le (hlhs : lhs.length ≤ n) (hne : names ≠ [])
    (hnames : ∀ name ∈ names, name.length ≤ n) :
    lhs.length + (" ".intercalate names).length + 4 ≤ names.length * (2 * n + 5) := by
  have hle := length_names_le hnames
  have hpos := Nat.mul_le_mul_right (n + 4) (List.length_pos_of_ne_nil hne)
  have hsum : names.length * (2 * n + 5) = names.length * (n + 1) + names.length * (n + 4) := by
    rw [← Nat.mul_add]
    congr 1
    omega
  omega

private theorem sum_alternatives_le (hlhs : lhs.length ≤ n) (hnil : [] ∉ alternatives)
    (hnames : ∀ names ∈ alternatives, ∀ name ∈ names, name.length ≤ n) :
    ((rulesOf lhs alternatives).map printedLength).sum ≤
      (alternativeSigns alternatives).length * (2 * n + 5) := by
  induction alternatives with
  | nil => simp [rulesOf]
  | cons names rest ih =>
    rw [List.mem_cons, not_or] at hnil
    obtain ⟨hfirst, hothers⟩ := List.forall_mem_cons.mp hnames
    have hboth := Nat.add_le_add (length_line_le hlhs (Ne.symm hnil.1) hfirst) (ih hnil.2 hothers)
    have hsigns : names.length + (alternativeSigns rest).length ≤
        (alternativeSigns (names :: rest)).length := by
      cases rest with
      | nil => simp [alternativeSigns]
      | cons others rest =>
        rw [alternativeSigns_cons_cons, List.length_append, List.length_map, List.length_cons]
        omega
    rw [sum_rulesOf_cons]
    rw [← Nat.add_mul] at hboth
    exact Nat.le_trans hboth (Nat.mul_le_mul_right _ hsigns)

/-- Lines are bounded by the number of signs, if all names are short. -/
theorem sum_printedLength_le
    (hnames : ∀ rule ∈ rules, ∀ name, .name name ∈ rule.signs → name.length ≤ n) :
    ((rules.flatMap RuleText.descriptions).map printedLength).sum ≤
      (rules.flatMap RuleText.signs).length * (2 * n + 5) := by
  induction rules with
  | nil => simp
  | cons rule rest ih =>
    obtain ⟨hrule, hothers⟩ := List.forall_mem_cons.mp hnames
    have hfirst := sum_alternatives_le (hrule rule.lhs List.mem_cons_self) rule.nil_not_mem
      fun names hmem name hname => hrule name (RuleText.name_mem_signs hmem hname)
    have hsigns : (alternativeSigns rule.alternatives).length ≤ rule.signs.length := by
      rw [RuleText.signs, List.length_cons, List.length_cons, List.length_append]
      omega
    rw [List.flatMap_cons, List.map_append, List.sum_append, List.flatMap_cons,
      List.length_append, Nat.add_mul]
    exact Nat.add_le_add (Nat.le_trans hfirst (Nat.mul_le_mul_right _ hsigns)) (ih hothers)

/-! ### Rules of a text -/

/-- The rules of a text, on separate lines, are bounded by the length of the text. -/
theorem sum_printedLength_le_of_parse (hparse : parse text = .ok d) :
    (d.rules.map printedLength).sum ≤ (text.length + 1) * (2 * text.length + 5) := by
  obtain ⟨_, rules, _, hreads⟩ := exists_rules_of_parse hparse
  have hnames : ∀ rule ∈ rules, ∀ name, .name name ∈ rule.signs → name.length ≤ text.length := by
    intro rule hrule name hname
    rw [← String.length_toList (s := text)]
    exact length_le_of_ident_mem_tokensOf (ident_mem_of_mem_signs hreads hrule hname)
  have hsigns : (rules.flatMap RuleText.signs).length ≤ text.length + 1 := by
    have hlength := congrArg List.length hreads
    rw [List.length_map] at hlength
    exact hlength ▸ Nat.le_trans (length_readBack_le text) (length_lexemes_le text)
  rw [(describes_of_parse hreads hparse).rules_eq]
  exact Nat.le_trans (sum_printedLength_le hnames) (Nat.mul_le_mul_right _ hsigns)

end Chomsky.Bnf
