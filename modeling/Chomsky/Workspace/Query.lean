import Chomsky.Workspace.Basic

/-!
# Queries about a grammar

A query leaves the grammar as it is. It may add names to the table: those of the
symbols that it asks about, and those that a normalization introduces.
-/

namespace Chomsky

/-- What can be asked about a grammar. -/
inductive Query where
  | lookup (name : String)
  | symbolInfo (ref : SymbolRef)
  | validate
  | overview
  | analyze
  | usefulness
  | occurrences (refs : List SymbolRef)
  | closure (refs : List SymbolRef)
  | normalize (naming : Naming)
  /-- The wrappers and helpers of the given symbols in a memo. -/
  | introduced (memo : Nat) (wrappers : List SymbolRef) (helpers : List (SymbolRef × SymbolRef))

namespace Query

/-- The names of the wrappers of the given symbols. All symbols are resolved before the first
name is looked up. -/
def wrapperNames (memo : BinaryMemo) (t : SymbolTable) (refs : List SymbolRef) :
    List (Option String) × SymbolTable :=
  let (terminals, t) := SymbolRef.resolveAll t refs
  (terminals.map fun s => (memo.wrapper? s).map t.nameOf, t)

/-- The names of the helpers of the given pairs. A name is looked up as soon as its pair is
resolved, so that a helper may be unknown to the table at first and known to it later. -/
def helperNames (memo : BinaryMemo) (t : SymbolTable) :
    List (SymbolRef × SymbolRef) → List (Option String) × SymbolTable
  | [] => ([], t)
  | (left, right) :: rest =>
    let (left, t) := left.resolve t
    let (right, t) := right.resolve t
    let name := (memo.helper? left right).map t.nameOf
    let (names, t) := helperNames memo t rest
    (name :: names, t)

/-- Answers a query about a grammar, given the memos of the workspace. -/
def answer (memos : List BinaryMemo) (g : Grammar) (t : SymbolTable) :
    Query → Journaled Failure (Answer × SymbolTable)
  | lookup name => return (.found (t.find? name) (g.declared? t name) (g.isTaken t name), t)
  | symbolInfo ref =>
    let (s, t) := ref.resolve t
    return (.symbolInfo s (t.nameOf s) (g.isTerminal s) (g.isNonterminal s), t)
  | validate => do
    (Journaled.ofExcept (g.validate t)).mapError .grammar
    return (.valid, t)
  | overview => return (.overview (g.overview t), t)
  | analyze => do
    let report ← (Journaled.ofExcept (g.analyze t)).mapError .range
    return (.analysis report, t)
  | usefulness => do
    let report ← (Journaled.ofExcept (g.usefulnessReport t)).mapError .range
    return (.usefulness report, t)
  | occurrences refs =>
    let (ss, t) := SymbolRef.resolveAll t refs
    return (.occurrences (g.occurrences ss), t)
  | closure refs =>
    let (ss, t) := SymbolRef.resolveAll t refs
    return (.set (rhsClosure g.rules (SymbolSet.ofList ss)), t)
  | normalize naming => do
    let (normalized, t) ← (g.normalize t naming).mapError TransformError.toFailure
    return (.normalized (normalized.report t), t)
  | introduced memo wrappers helpers =>
    match memos[memo]? with
    | none => Journaled.ofExcept (.error (.noMemo memo))
    | some memo =>
      let (wrappers, t) := wrapperNames memo t wrappers
      let (helpers, t) := helperNames memo t helpers
      return (.introduced wrappers helpers memo.wrappers.length memo.helpers.length, t)

end Query

end Chomsky
