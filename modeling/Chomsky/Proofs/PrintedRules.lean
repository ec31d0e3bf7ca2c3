import Chomsky.Proofs.Reading

/-!
# Printed rules

A rule is printed on a line of its own: the left name, an arrow, and the
alternatives with bars between them. Names are followed by spaces or by the end of
the line, so each is read as one name again, and a line that starts with a name is
not joined to the line before it. Hence printed rules are read as these rules.
-/

namespace Chomsky.Bnf

open Text (isBlank isControl)

namespace RuleText

/-- The rule on one line. -/
def text (rule : RuleText) : String :=
  rule.lhs ++ " → " ++ " | ".intercalate (rule.alternatives.map (" ".intercalate ·)) ++ "\n"

/-- Everything that is written as a name can be read as a name. -/
structure Legible (rule : RuleText) : Prop where
  lhs : IsName rule.lhs
  alternatives : ∀ names ∈ rule.alternatives, ∀ name ∈ names, IsName name

end RuleText

variable {names : List String} {alternatives : List (List String)} {rule : RuleText}
  {rules : List RuleText} {d : Char}

/-! ## Signs of printed rules -/

private theorem signsAfter_names (hne : names ≠ []) (hnames : ∀ name ∈ names, IsName name)
    (hd : endsName d = true) (afterBar idle : Bool) (tail : List Char) :
    signsAfter afterBar idle (tokensOf ((" ".intercalate names).toList ++ d :: tail)) =
      names.map Sign.name ++ signsAfter false false (tokensOf (d :: tail)) := by
  induction names generalizing afterBar idle with
  | nil => exact absurd rfl hne
  | cons name rest ih =>
    have hname := hnames name List.mem_cons_self
    cases rest with
    | nil => simp [tokensOf_name hname hd]
    | cons other others =>
      have hrest := ih (List.cons_ne_nil _ _)
        (fun name hmem => hnames name (List.mem_cons_of_mem _ hmem)) false false
      have hsplit : (" ".intercalate (name :: other :: others)).toList ++ d :: tail =
          name.toList ++ ' ' :: ((" ".intercalate (other :: others)).toList ++ d :: tail) := by
        simp [String.intercalate_cons_cons]
      rw [hsplit, tokensOf_name hname (by decide), tokensOf_space, signsAfter_ident,
        signsAfter_blank, hrest]
      rfl

private theorem signsAfter_alternatives (hne : alternatives ≠ []) (hnil : [] ∉ alternatives)
    (hnames : ∀ names ∈ alternatives, ∀ name ∈ names, IsName name) (afterBar idle : Bool)
    (tail : List Char) :
    signsAfter afterBar idle
        (tokensOf ((" | ".intercalate (alternatives.map (" ".intercalate ·))).toList ++
          '\n' :: tail)) =
      alternativeSigns alternatives ++ signsAfter false false (tokensOf ('\n' :: tail)) := by
  induction alternatives generalizing afterBar idle with
  | nil => exact absurd rfl hne
  | cons names rest ih =>
    rw [List.mem_cons, not_or] at hnil
    have hfirst := hnames names List.mem_cons_self
    cases rest with
    | nil =>
      have hline : endsName '\n' = true := by decide
      simpa using signsAfter_names (Ne.symm hnil.1) hfirst hline afterBar idle tail
    | cons others rest =>
      have hrest := ih (List.cons_ne_nil _ _) hnil.2
        (fun names hmem => hnames names (List.mem_cons_of_mem _ hmem)) true false
      have hsplit :
          (" | ".intercalate ((names :: others :: rest).map (" ".intercalate ·))).toList ++
              '\n' :: tail =
            (" ".intercalate names).toList ++ ' ' :: '|' :: ' ' ::
              ((" | ".intercalate ((others :: rest).map (" ".intercalate ·))).toList ++
                '\n' :: tail) := by
        simp [String.intercalate_cons_cons]
      rw [hsplit, signsAfter_names (Ne.symm hnil.1) hfirst (by decide), tokensOf_space,
        signsAfter_blank, tokensOf_bar, signsAfter_bar, tokensOf_space, signsAfter_blank, hrest]
      simp

/-- A printed rule starts with its left name, a space and an arrow. -/
theorem RuleText.toList_text_append (rule : RuleText) (tail : List Char) :
    rule.text.toList ++ tail = rule.lhs.toList ++ ' ' :: '→' :: ' ' ::
      ((" | ".intercalate (rule.alternatives.map (" ".intercalate ·))).toList ++ '\n' :: tail) := by
  simp [text]

/-- A printed rule is read as its signs, unless the next line starts with a bar. -/
theorem signsAfter_rule (hrule : rule.Legible) {tail : List Char}
    (hbar : barFollows ((tokensOf tail).filter isVisible) = false) :
    signsAfter false true (tokensOf (rule.text.toList ++ tail)) =
      rule.signs ++ signsAfter false true (tokensOf tail) := by
  rw [rule.toList_text_append, tokensOf_name hrule.lhs (by decide), signsAfter_ident,
    tokensOf_space, signsAfter_blank, tokensOf_arrow, signsAfter_arrow, tokensOf_space,
    signsAfter_blank,
    signsAfter_alternatives rule.alternatives_ne_nil rule.nil_not_mem hrule.alternatives,
    tokensOf_newline, signsAfter_newline, hbar]
  simp [RuleText.signs]

/-- No printed rules start with a bar. -/
theorem not_barFollows_join (hrules : ∀ rule ∈ rules, rule.Legible) :
    barFollows ((tokensOf (String.join (rules.map RuleText.text)).toList).filter isVisible) =
      false := by
  cases rules with
  | nil =>
    rw [List.map_nil, String.join_nil, String.toList_empty, tokensOf_nil]
    rfl
  | cons rule rest =>
    have hlhs := (hrules rule List.mem_cons_self).lhs
    rw [List.map_cons, String.join_cons, String.toList_append, rule.toList_text_append,
      tokensOf_name hlhs (by decide)]
    rfl

/-- Printed rules are read as their signs. -/
theorem effectiveSigns_join (hrules : ∀ rule ∈ rules, rule.Legible) :
    effectiveSigns (String.join (rules.map RuleText.text)) = rules.flatMap RuleText.signs := by
  rw [effectiveSigns]
  induction rules with
  | nil => simp
  | cons rule rest ih =>
    have hrest : ∀ rule ∈ rest, rule.Legible :=
      fun rule hmem => hrules rule (List.mem_cons_of_mem _ hmem)
    rw [List.map_cons, String.join_cons, String.toList_append,
      signsAfter_rule (hrules rule List.mem_cons_self) (not_barFollows_join hrest), ih hrest]
    rfl

/-! ## Characters of printed rules -/

/-- Every control character of the text is a blank, such as a line break. -/
def Plain (text : String) : Prop := ∀ c ∈ text.toList, isControl c = true → isBlank c = true

instance (text : String) : Decidable (Plain text) :=
  List.decidableBAll (fun c => isControl c = true → isBlank c = true) text.toList

section Plain

variable {text other name sep : String} {parts : List String}

/-- Plain texts one after the other are plain. -/
theorem Plain.append (htext : Plain text) (hother : Plain other) : Plain (text ++ other) := by
  intro c hc
  rw [String.toList_append, List.mem_append] at hc
  exact hc.elim (htext c) (hother c)

private theorem plain_join (hparts : ∀ part ∈ parts, Plain part) : Plain (String.join parts) := by
  intro c hc
  rw [String.toList_join, List.mem_flatMap] at hc
  obtain ⟨part, hpart, hc⟩ := hc
  exact hparts part hpart c hc

private theorem plain_intercalate (hsep : Plain sep) (hparts : ∀ part ∈ parts, Plain part) :
    Plain (sep.intercalate parts) := by
  induction parts with
  | nil => simp [Plain]
  | cons part rest ih =>
    have hpart := hparts part List.mem_cons_self
    have hrest := ih fun part hmem => hparts part (List.mem_cons_of_mem _ hmem)
    cases rest with
    | nil => simpa using hpart
    | cons other others =>
      rw [String.intercalate_cons_cons]
      exact (hpart.append hsep).append hrest

/-- A name is plain. -/
theorem IsName.plain (h : IsName name) : Plain name := by
  intro c hc hcontrol
  have hends := not_endsName_of_whole h.whole c hc
  simp [endsName, hcontrol] at hends

/-- A printed rule is plain. -/
theorem RuleText.Legible.plain (h : rule.Legible) : Plain rule.text := by
  have hright : ∀ part ∈ rule.alternatives.map (" ".intercalate ·), Plain part := by
    intro part hpart
    obtain ⟨names, hnames, rfl⟩ := List.mem_map.1 hpart
    exact plain_intercalate (by decide) fun name hname =>
      (h.alternatives names hnames name hname).plain
  exact ((h.lhs.plain.append (by decide)).append (plain_intercalate (by decide) hright)).append
    (by decide)

/-- A plain text has no control token. -/
theorem Plain.control_not_mem (h : Plain text) (c : Char) : .control c ∉ tokensOf text.toList := by
  intro hc
  obtain ⟨hmem, hcontrol, hblank⟩ := mem_of_control_mem_tokensOf hc
  rw [h c hmem hcontrol] at hblank
  cases hblank

end Plain

/-- Printed rules are read back, as long as the numbers of lexemes fit. -/
theorem parse_join {start : String} (hrules : ∀ rule ∈ rules, rule.Legible)
    (hstart : rules.head?.map RuleText.lhs = some start)
    (hcount : (lexemes (String.join (rules.map RuleText.text))).length ≤ UInt32.size) :
    parse (String.join (rules.map RuleText.text)) =
      .ok (describe start (rules.flatMap RuleText.descriptions)) := by
  obtain ⟨rule, rest, rfl, rfl⟩ : ∃ rule rest, rules = rule :: rest ∧ rule.lhs = start := by
    cases rules <;> simp_all
  have hplain : Plain (String.join ((rule :: rest).map RuleText.text)) := by
    refine plain_join fun part hpart => ?_
    obtain ⟨other, hother, rfl⟩ := List.mem_map.1 hpart
    exact (hrules other hother).plain
  exact parse_of_effectiveSigns hcount hplain.control_not_mem (effectiveSigns_join hrules)

/-- Printed rules of fewer than `2 ^ 32` characters can be counted: they start with a name and end
with a line break. -/
theorem fitsCounters_join (hne : rules ≠ []) (hrules : ∀ rule ∈ rules, rule.Legible)
    (hlength : (String.join (rules.map RuleText.text)).length < UInt32.size) :
    FitsCounters (String.join (rules.map RuleText.text)) := by
  refine fitsCounters_of_lines ?_ ?_ hlength
  · obtain ⟨rule, rest, rfl⟩ := List.exists_cons_of_ne_nil hne
    have hlhs := (hrules rule List.mem_cons_self).lhs
    obtain ⟨c, cs, hname⟩ := List.exists_cons_of_ne_nil hlhs.ne_nil
    have hc := not_endsName_of_whole hlhs.whole c (hname ▸ List.mem_cons_self)
    rw [List.map_cons, String.join_cons, String.toList_append, rule.toList_text_append, hname]
    rintro ⟨⟩
    revert hc
    decide
  · obtain ⟨init, last, rfl⟩ := (List.eq_nil_or_concat' rules).resolve_left hne
    simp [RuleText.text, List.getLast?_cons]

end Chomsky.Bnf
