import Chomsky.NormalForm.Binary
import Chomsky.Proofs.FreshSymbols

/-!
# Single steps of a splitting run

A run that splits rules is made of three kinds of steps: it introduces the wrapper of
a terminal, introduces the helper of a pair, or adds a rule. Whatever each of them
keeps is kept by the whole run. In particular the table only grows.
-/

namespace Chomsky

namespace Binarization

/-- Each single step keeps the property. -/
structure KeptBySteps (property : Binarization → Prop) : Prop where
  addWrapper : ∀ b, ∀ s ∈ b.grammar.terminals, property b → property (b.addWrapper s).2
  addHelper : ∀ b left right, property b → property (b.addHelper left right).2
  emit : ∀ b rule, property b → property (b.emit rule)

namespace KeptBySteps

variable {property : Binarization → Prop} {b : Binarization} (hkept : KeptBySteps property)

include hkept

/-- What single introductions keep is kept when a symbol is replaced by its wrapper. -/
theorem wrapTerminal (s : Symbol) (hb : property b) : property (b.wrapTerminal s).2 := by
  unfold Binarization.wrapTerminal
  split
  · rename_i hterminal
    unfold Binarization.wrap
    cases b.memo.wrapper? s with
    | none => exact hkept.addWrapper b s hterminal hb
    | some w => exact hb
  · exact hb

/-- What single introductions keep is kept when two symbols are paired. -/
theorem pair (left right : Symbol) (hb : property b) : property (b.pair left right).2 := by
  unfold Binarization.pair
  cases b.memo.helper? left right with
  | none => exact hkept.addHelper b left right hb
  | some w => exact hb

/-- What single introductions keep is kept when symbols are replaced by their wrappers. -/
theorem wrapAll (symbols : List Symbol) (hb : property b) : property (b.wrapAll symbols).2 := by
  induction symbols generalizing b with
  | nil => exact hb
  | cons s rest ih => exact ih (hkept.wrapTerminal s hb)

/-- What single introductions keep is kept when a right side is collapsed. -/
theorem collapse (first : Symbol) (symbols : List Symbol) (hb : property b) :
    property (b.collapse first symbols).2 := by
  fun_induction Binarization.collapse b first symbols with
  | case1 => exact hb
  | case2 => exact hb
  | case3 b first second third rest s b₁ hpair ih =>
    have hnext := hkept.pair first second hb
    rw [hpair] at hnext
    exact ih hnext

/-- What single introductions and new rules keep is kept when a rule is split. -/
theorem addSplit (rule : Rule) (hb : property b) : property (b.addSplit rule) := by
  obtain ⟨lhs, rhs⟩ := rule
  match rhs with
  | [] | [_] => exact hkept.emit b _ hb
  | first :: second :: rest =>
    have hfirst := hkept.wrapTerminal first hb
    have hrest := hkept.wrapAll (second :: rest) hfirst
    exact hkept.emit _ _ (hkept.collapse _ _ hrest)

/-- What the single steps keep, the whole run keeps. -/
theorem addSplits (rules : List Rule) (hb : property b) : property (b.addSplits rules) := by
  induction rules generalizing b with
  | nil => exact hb
  | cons rule rest ih => exact ih (hkept.addSplit rule hb)

end KeptBySteps

/-- Introduced names join the table at its end. -/
theorem keptBySteps_growsTo (t : SymbolTable) : KeptBySteps fun b => t.GrowsTo b.table where
  addWrapper b _ _ hb := hb.trans (b.table.growsTo_intern _)
  addHelper b _ _ hb := hb.trans (b.table.growsTo_intern _)
  emit _ _ hb := hb

end Binarization

/-- Splitting lets the table grow, whatever the memo and the rules are. -/
theorem Grammar.growsTo_binarize (g : Grammar) (memo : BinaryMemo) (t : SymbolTable) :
    t.GrowsTo (g.binarize memo t).table :=
  (Binarization.keptBySteps_growsTo t).addSplits g.rules (SymbolTable.GrowsTo.refl t)

end Chomsky
