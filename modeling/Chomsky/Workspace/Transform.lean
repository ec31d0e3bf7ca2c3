import Chomsky.Workspace.Basic

/-!
# Transformations of a grammar

A transformation yields a new grammar over the same table and leaves the old one
as it is.
-/

namespace Chomsky

/-- How a grammar can be made from another. -/
inductive Transform where
  | copy
  | withRules (rules : List RuleRef)
  | sortByNumber
  | removeUnproductive
  | removeUnreachable
  | removeUseless
  | eliminateEpsilon (naming : Naming)
  | eliminateUnits
  /-- Splits long rules with a memo of its own. -/
  | binarize (naming : Naming)
  /-- Splits long rules with a memo of the workspace. -/
  | binarizeWith (memo : Nat)

/-- A new grammar with the table and the memos after a transformation. -/
structure Transformed where
  grammar : Grammar
  table : SymbolTable
  memos : List BinaryMemo

namespace Transform

/-- The effect of a transformation. -/
def apply (memos : List BinaryMemo) (g : Grammar) (t : SymbolTable) :
    Transform → Journaled Failure Transformed
  | copy => return ⟨g, t, memos⟩
  | withRules refs =>
    let (rules, t) := RuleRef.resolveAll t refs
    return ⟨g.withRules rules, t, memos⟩
  | sortByNumber => return ⟨g.sortByNumber, t, memos⟩
  | removeUnproductive => return ⟨← g.journalUnproductive, t, memos⟩
  | removeUnreachable => return ⟨← (g.journalUnreachable t).mapError .range, t, memos⟩
  | removeUseless => return ⟨← (g.journalUseless t).mapError .range, t, memos⟩
  | eliminateEpsilon naming => do
    let (g, t) ← g.journalEpsilon t naming
    return ⟨g, t, memos⟩
  | eliminateUnits => return ⟨← (g.journalUnits t).mapError .range, t, memos⟩
  | binarize naming => do
    let b ← g.journalBinary { naming } t
    return ⟨b.grammar, b.table, memos⟩
  | binarizeWith index =>
    match memos[index]? with
    | none => Journaled.ofExcept (.error (.noMemo index))
    | some memo => do
      let b ← g.journalBinary memo t
      return ⟨b.grammar, b.table, memos.set index b.memo⟩

end Transform

end Chomsky
