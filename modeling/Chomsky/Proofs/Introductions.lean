import Chomsky.Proofs.BinaryCoverage
import Chomsky.Proofs.Definitions
import Mathlib.Logic.Relation

/-!
# Introductions of a splitting run

The memo of a run lists the definitions of the symbols that the run introduced. A run
that splits a rule introduces some symbols, one at a time, and then adds a single rule. What
it puts on the right side of that rule stands, by the definitions, for the right side of
the rule that is split.
-/

namespace Chomsky

namespace BinaryMemo

variable {memo : BinaryMemo} {x left right s : Symbol}

/-- The rules of the introduced symbols: a wrapper has its terminal, and a helper its pair. -/
def definitions (memo : BinaryMemo) : List Rule :=
  memo.wrappers.map (fun entry => ⟨entry.2, [entry.1]⟩) ++
    memo.helpers.map fun entry => ⟨entry.2, [entry.1.1, entry.1.2]⟩

/-- The wrappers and helpers. -/
def introduced (memo : BinaryMemo) : List Symbol := memo.definitions.map Rule.lhs

/-- What the memo defines is what it answers. -/
structure Answers (memo : BinaryMemo) : Prop where
  wrapper : ∀ x s, memo.wrapper? x = some s ↔ ⟨s, [x]⟩ ∈ memo.definitions
  helper : ∀ left right s, memo.helper? left right = some s ↔ ⟨s, [left, right]⟩ ∈ memo.definitions

private theorem mem_definitions_of_wrapper? (h : memo.wrapper? x = some s) :
    ⟨s, [x]⟩ ∈ memo.definitions := by
  obtain ⟨before, after, hlisted, _⟩ := List.lookup_eq_some_iff.mp h
  simp [definitions, hlisted]

private theorem mem_definitions_of_helper? (h : memo.helper? left right = some s) :
    ⟨s, [left, right]⟩ ∈ memo.definitions := by
  obtain ⟨before, after, hlisted, _⟩ := List.lookup_eq_some_iff.mp h
  simp [definitions, hlisted]

end BinaryMemo

/-- The right side defines a wrapper, by a terminal, or a helper, by two nonterminals. -/
def Grammar.IsDefinition (g : Grammar) (d : Rule) : Prop :=
  (∃ x ∈ g.terminals, d.rhs = [x]) ∨
    ∃ left ∈ g.nonterminals, ∃ right ∈ g.nonterminals, d.rhs = [left, right]

namespace Grammar.IsDefinition

variable {g h : Grammar} {d : Rule}

/-- All symbols on the right of a definition are declared. -/
theorem isDeclared (hd : g.IsDefinition d) : ∀ x ∈ d.rhs, g.isDeclared x = true := by
  intro x hx
  rw [isDeclared_iff]
  rcases hd with ⟨y, hy, hrhs⟩ | ⟨left, hleft, right, hright, hrhs⟩
  · rw [hrhs, List.mem_singleton] at hx
    exact Or.inl (hx ▸ hy)
  · rw [hrhs, List.mem_pair] at hx
    rcases hx with rfl | rfl
    · exact Or.inr hleft
    · exact Or.inr hright

/-- A fresh symbol is not on the right of its own definition. -/
theorem lhs_not_mem (hd : g.IsDefinition d) (hfresh : g.isDeclared d.lhs = false) :
    d.lhs ∉ d.rhs := by
  intro hmem
  rw [hd.isDeclared d.lhs hmem] at hfresh
  cases hfresh

/-- A definition stays one when nonterminals are added. -/
theorem mono (hd : g.IsDefinition d) (hterminals : h.terminals = g.terminals)
    (hnonterminals : ∀ s ∈ g.nonterminals, s ∈ h.nonterminals) : h.IsDefinition d := by
  rcases hd with ⟨x, hx, hrhs⟩ | ⟨left, hleft, right, hright, hrhs⟩
  · exact Or.inl ⟨x, hterminals ▸ hx, hrhs⟩
  · exact Or.inr ⟨left, hnonterminals left hleft, right, hnonterminals right hright, hrhs⟩

end Grammar.IsDefinition

namespace Binarization

variable {b b' b'' : Binarization} {d rule : Rule} {s left right : Symbol}
  {symbols results : List Symbol}

/-! ### Introductions -/

/-- A symbol is introduced, and the memo learns its definition. -/
structure Enters (b b' : Binarization) (d : Rule) : Prop where
  introduces : b.Introduces b' d.lhs d.rhs
  definitions : b'.memo.definitions.Perm (d :: b.memo.definitions)
  isDefinition : b.grammar.IsDefinition d
  answers : b.memo.Answers → b'.memo.Answers

/-- One definition is added. -/
theorem Enters.mem_definitions (h : b.Enters b' d) {other : Rule} :
    other ∈ b'.memo.definitions ↔ other = d ∨ other ∈ b.memo.definitions :=
  h.definitions.mem_iff.trans List.mem_cons

/-- One introduced symbol is added. -/
theorem Enters.perm_introduced (h : b.Enters b' d) :
    b'.memo.introduced.Perm (d.lhs :: b.memo.introduced) :=
  h.definitions.map Rule.lhs

/-- The definition comes after the rules so far. -/
theorem Enters.rules_finish (h : b.Enters b' d) :
    b'.finish.grammar.rules = b.finish.grammar.rules ++ [d] := by
  simp [finish, h.introduces.grammar, Grammar.withRules]

private theorem enters_addWrapper (hs : s ∈ b.grammar.terminals)
    (hnone : b.memo.wrapper? s = none) :
    b.Enters (b.addWrapper s).2 ⟨(b.addWrapper s).1, [s]⟩ where
  introduces := b.introduces_addWrapper s
  definitions := List.Perm.refl _
  isDefinition := Or.inl ⟨s, hs, rfl⟩
  answers hanswers := by
    have hdefinitions : (b.addWrapper s).2.memo.definitions =
        ⟨(b.addWrapper s).1, [s]⟩ :: b.memo.definitions := rfl
    refine ⟨fun x w => ?_, fun left right w => ?_⟩
    · rw [b.wrapper?_addWrapper, hdefinitions, List.mem_cons, ← hanswers.wrapper]
      by_cases hx : x = s
      · simp [hx, hnone, eq_comm]
      · simp [hx]
    · rw [hdefinitions, List.mem_cons, ← hanswers.helper]
      simp [BinaryMemo.helper?, addWrapper, define, emit, record]

private theorem enters_addHelper (hleft : left ∈ b.grammar.nonterminals)
    (hright : right ∈ b.grammar.nonterminals) (hnone : b.memo.helper? left right = none) :
    b.Enters (b.addHelper left right).2 ⟨(b.addHelper left right).1, [left, right]⟩ where
  introduces := b.introduces_addHelper left right
  definitions := List.perm_middle
  isDefinition := Or.inr ⟨left, hleft, right, hright, rfl⟩
  answers hanswers := by
    have hmem : ∀ other, other ∈ (b.addHelper left right).2.memo.definitions ↔
        other = ⟨(b.addHelper left right).1, [left, right]⟩ ∨ other ∈ b.memo.definitions :=
      fun other => List.perm_middle.mem_iff.trans List.mem_cons
    refine ⟨fun x w => ?_, fun l r w => ?_⟩
    · rw [hmem, ← hanswers.wrapper]
      simp [BinaryMemo.wrapper?, addHelper, define, emit, record]
    · rw [b.helper?_addHelper, hmem, ← hanswers.helper]
      by_cases hpair : (l, r) = (left, right)
      · obtain ⟨rfl, rfl⟩ := Prod.mk.inj hpair
        simp [hnone, eq_comm]
      · have hne : ¬(l = left ∧ r = right) := fun h => hpair (Prod.ext h.1 h.2)
        simp [hne]

/-- One symbol is introduced. -/
def Step (b b' : Binarization) : Prop := ∃ d, b.Enters b' d

/-- The symbols that the memo knows are declared. -/
def Declares (b : Binarization) : Prop := ∀ d ∈ b.memo.definitions, d.lhs ∈ b.grammar.nonterminals

/-- Introductions only add to what is declared and defined. -/
structure Extends (b b' : Binarization) : Prop where
  terminals : b'.grammar.terminals = b.grammar.terminals
  nonterminals : ∀ s ∈ b.grammar.nonterminals, s ∈ b'.grammar.nonterminals
  definitions : ∀ d ∈ b.memo.definitions, d ∈ b'.memo.definitions
  declares : b.Declares → b'.Declares

/-- An introduction extends the grammar. -/
theorem Enters.extends (h : b.Enters b' d) : b.Extends b' where
  terminals := by
    rw [h.introduces.grammar]
    rfl
  nonterminals s hs := h.introduces.mem_nonterminals.mpr (Or.inl hs)
  definitions other hother := h.mem_definitions.mpr (Or.inr hother)
  declares hb other hother := by
    rw [h.introduces.mem_nonterminals]
    rcases h.mem_definitions.mp hother with rfl | hother
    · exact Or.inr rfl
    · exact Or.inl (hb other hother)

private theorem extends_of_steps (h : Relation.ReflTransGen Step b b') : b.Extends b' := by
  induction h with
  | refl => exact ⟨rfl, fun _ hs => hs, fun _ hd => hd, fun hb => hb⟩
  | tail _ hstep ih =>
    obtain ⟨d, hd⟩ := hstep
    have hnext := hd.extends
    exact ⟨hnext.terminals.trans ih.terminals,
      fun s hs => hnext.nonterminals s (ih.nonterminals s hs),
      fun d hd => hnext.definitions d (ih.definitions d hd),
      fun hb => hnext.declares (ih.declares hb)⟩

/-- Declared symbols stay declared. -/
theorem Extends.isDeclared (h : b.Extends b') (hs : b.grammar.isDeclared s = true) :
    b'.grammar.isDeclared s = true := by
  rw [Grammar.isDeclared_iff] at hs ⊢
  rw [h.terminals]
  exact hs.imp_right (h.nonterminals s)

/-! ### Replaced symbols -/

/-- Symbols are replaced by nonterminals that stand for them, with introductions as needed. -/
structure Replaces (b b' : Binarization) (symbols results : List Symbol) : Prop where
  steps : Relation.ReflTransGen Step b b'
  nonterminals : ∀ s ∈ results, s ∈ b'.grammar.nonterminals
  standFor : StandFor b'.memo.definitions results symbols

/-- A replacement extends the grammar. -/
theorem Replaces.extends (h : b.Replaces b' symbols results) : b.Extends b' :=
  extends_of_steps h.steps

private theorem replaces_self (hsymbols : ∀ s ∈ symbols, s ∈ b.grammar.nonterminals) :
    b.Replaces b symbols symbols :=
  ⟨.refl, hsymbols, fun _ _ => rfl⟩

/-- A symbol that the memo knows replaces the right side of its definition. -/
theorem Declares.replaces (hb : b.Declares) (hd : d ∈ b.memo.definitions) :
    b.Replaces b d.rhs [d.lhs] := by
  refine ⟨.refl, fun s hs => ?_, fun expand hexpand => ?_⟩
  · rw [List.mem_singleton.mp hs]
    exact hb d hd
  · rw [List.flatMap_singleton, hexpand d hd]

/-- An introduced symbol replaces the right side of its definition. -/
theorem Enters.replaces (h : b.Enters b' d) (hb : b.Declares) : b.Replaces b' d.rhs [d.lhs] := by
  have hnow := (h.extends.declares hb).replaces (h.mem_definitions.mpr (Or.inl rfl))
  exact ⟨.single ⟨d, h⟩, hnow.nonterminals, hnow.standFor⟩

/-- Neighbours are replaced one after the other. -/
theorem Replaces.append {symbols' results' : List Symbol} (h : b.Replaces b' symbols results)
    (h' : b'.Replaces b'' symbols' results') :
    b.Replaces b'' (symbols ++ symbols') (results ++ results') := by
  refine ⟨h.steps.trans h'.steps, fun s hs => ?_, fun expand hexpand => ?_⟩
  · rcases List.mem_append.mp hs with hs | hs
    · exact h'.extends.nonterminals s (h.nonterminals s hs)
    · exact h'.nonterminals s hs
  · have hbefore := h.standFor expand fun d hd => hexpand d (h'.extends.definitions d hd)
    rw [List.flatMap_append, List.flatMap_append, hbefore, h'.standFor expand hexpand]

/-- Replacements follow one another. -/
theorem Replaces.trans {results' : List Symbol} (h : b.Replaces b' symbols results)
    (h' : b'.Replaces b'' results results') : b.Replaces b'' symbols results' := by
  refine ⟨h.steps.trans h'.steps, h'.nonterminals, fun expand hexpand => ?_⟩
  rw [h'.standFor expand hexpand]
  exact h.standFor expand fun d hd => hexpand d (h'.extends.definitions d hd)

private theorem replaces_wrap (hb : b.Declares) (hs : s ∈ b.grammar.terminals) :
    b.Replaces (b.wrap s).2 [s] [(b.wrap s).1] := by
  unfold wrap
  cases hmemo : b.memo.wrapper? s with
  | none => exact (enters_addWrapper hs hmemo).replaces hb
  | some w => exact hb.replaces (BinaryMemo.mem_definitions_of_wrapper? hmemo)

private theorem replaces_pair (hb : b.Declares) (hleft : left ∈ b.grammar.nonterminals)
    (hright : right ∈ b.grammar.nonterminals) :
    b.Replaces (b.pair left right).2 [left, right] [(b.pair left right).1] := by
  unfold pair
  cases hmemo : b.memo.helper? left right with
  | none => exact (enters_addHelper hleft hright hmemo).replaces hb
  | some w => exact hb.replaces (BinaryMemo.mem_definitions_of_helper? hmemo)

private theorem replaces_wrapTerminal (hb : b.Declares) (hs : b.grammar.isDeclared s = true) :
    b.Replaces (b.wrapTerminal s).2 [s] [(b.wrapTerminal s).1] := by
  unfold wrapTerminal
  split
  · rename_i hterminal
    exact replaces_wrap hb hterminal
  · rename_i hterminal
    have hnonterminal := (Grammar.isDeclared_iff.mp hs).resolve_left hterminal
    exact replaces_self (by simpa using hnonterminal)

private theorem replaces_wrapAll (hb : b.Declares)
    (hsymbols : ∀ s ∈ symbols, b.grammar.isDeclared s = true) :
    b.Replaces (b.wrapAll symbols).2 symbols (b.wrapAll symbols).1 := by
  induction symbols generalizing b with
  | nil => exact replaces_self (by simp)
  | cons s rest ih =>
    have hfirst := replaces_wrapTerminal hb (hsymbols s (by simp))
    have hrest := ih (hfirst.extends.declares hb) fun x hx =>
      hfirst.extends.isDeclared (hsymbols x (List.mem_cons_of_mem s hx))
    exact hfirst.append hrest

private theorem replaces_collapse {first : Symbol} (hb : b.Declares)
    (hsymbols : ∀ s ∈ first :: symbols, s ∈ b.grammar.nonterminals) :
    b.Replaces (b.collapse first symbols).2 (first :: symbols) (b.collapse first symbols).1 := by
  fun_induction collapse b first symbols with
  | case1 b first => exact replaces_self hsymbols
  | case2 b first second => exact replaces_self hsymbols
  | case3 b first second third rest s b₁ hpair ih =>
    have hstep := replaces_pair hb (hsymbols first (by simp)) (hsymbols second (by simp))
    rw [hpair] at hstep
    have hrest : b₁.Replaces b₁ (third :: rest) (third :: rest) := replaces_self fun x hx =>
      hstep.extends.nonterminals x (hsymbols x (by simp [hx]))
    have hshorter := hstep.append hrest
    exact hshorter.trans (ih (hstep.extends.declares hb) hshorter.nonterminals)

/-- To split a rule, symbols are introduced and then one rule is added, which has the same left
side and a right side that stands for the same symbols. -/
theorem exists_addSplit (hb : b.Declares)
    (hsymbols : ∀ s ∈ rule.rhs, b.grammar.isDeclared s = true) :
    ∃ b' rhs, b.addSplit rule = b'.emit ⟨rule.lhs, rhs⟩ ∧ Relation.ReflTransGen Step b b' ∧
      (∀ s ∈ rhs, b'.grammar.isDeclared s = true) ∧
      StandFor b'.memo.definitions rhs rule.rhs := by
  obtain ⟨lhs, rhs⟩ := rule
  match rhs with
  | [] | [_] => exact ⟨b, _, rfl, .refl, hsymbols, fun _ _ => rfl⟩
  | first :: second :: rest =>
    have hfirst := replaces_wrapTerminal hb (hsymbols first (by simp))
    have hsymbols' : ∀ x ∈ second :: rest, (b.wrapTerminal first).2.grammar.isDeclared x = true :=
      fun x hx => hfirst.extends.isDeclared (hsymbols x (List.mem_cons_of_mem first hx))
    have hrest := replaces_wrapAll (hfirst.extends.declares hb) hsymbols'
    have hwrapped := hfirst.append hrest
    have hpairs := replaces_collapse (hwrapped.extends.declares hb) hwrapped.nonterminals
    have hall := hwrapped.trans hpairs
    refine ⟨_, _, rfl, hall.steps, fun s hs => ?_, hall.standFor⟩
    exact Grammar.isDeclared_iff.mpr (Or.inr (hall.nonterminals s hs))

end Binarization

end Chomsky
