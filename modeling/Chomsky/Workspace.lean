import Chomsky.Workspace.Edit
import Chomsky.Workspace.Query
import Chomsky.Workspace.Transform

/-!
# Workspaces

A workspace keeps grammars, their symbol tables and binarization memos. Grammars
made from one another share a table, so that work on one of them may add names
that all of them see. A command that fails leaves the workspace as it was.
-/

namespace Chomsky

/-- A grammar and the place of its table. -/
structure Snapshot where
  table : Nat
  grammar : Grammar

/-- The tables, grammars and memos at hand, each known by its place. -/
structure Workspace where
  tables : List SymbolTable := []
  snapshots : List Snapshot := []
  memos : List BinaryMemo := []

/-- What a workspace can be told to do. -/
inductive Command where
  /-- A grammar without rules whose start symbol is its only nonterminal. -/
  | new (start : String)
  /-- A grammar without declarations and rules over a table of the given names. -/
  | ofNames (names : List String) (start : Symbol)
  | load (source : GrammarSource)
  | addMemo (naming : Naming)
  | edit (index : Nat) (e : Edit)
  | query (index : Nat) (q : Query)
  | transform (index : Nat) (tr : Transform)

/-- The answer to a command, its events and the workspace after it. -/
structure Progress where
  answer : Except Failure Answer
  events : List Event
  workspace : Workspace

namespace Workspace

/-- The grammar at a place, with the place of its table and the table. -/
def find? (w : Workspace) (index : Nat) : Option (Snapshot × SymbolTable) := do
  let snapshot ← w.snapshots[index]?
  let table ← w.tables[snapshot.table]?
  return (snapshot, table)

/-- Adds a grammar with a table of its own. -/
def addGrammar (w : Workspace) (g : Grammar) (t : SymbolTable) : Answer × Workspace :=
  (.created w.snapshots.length (g.named t),
    { w with
      tables := w.tables ++ [t]
      snapshots := w.snapshots ++ [⟨w.tables.length, g⟩] })

/-- Adds a grammar that shares the table at a place, which becomes `t`. -/
def addDerived (w : Workspace) (table : Nat) (g : Grammar) (t : SymbolTable) :
    Answer × Workspace :=
  (.created w.snapshots.length (g.named t),
    { w with
      tables := w.tables.set table t
      snapshots := w.snapshots ++ [⟨table, g⟩] })

/-- Carries out a command. -/
def step (w : Workspace) : Command → Journaled Failure (Answer × Workspace)
  | .new start =>
    let (s, t) := SymbolTable.empty.intern start
    return w.addGrammar (Grammar.addNonterminal { start := s } s) t
  | .ofNames names start =>
    let (_, t) := SymbolTable.empty.internAll names
    return w.addGrammar { start } t
  | .load source => do
    let (g, t) ← source.build
    return w.addGrammar g t
  | .addMemo naming =>
    return (.memo w.memos.length, { w with memos := w.memos ++ [{ naming }] })
  | .edit index e =>
    match w.find? index with
    | none => Journaled.ofExcept (.error (.noGrammar index))
    | some (snapshot, t) =>
      let edited := e.apply snapshot.grammar t
      return (edited.answer,
        { w with
          tables := w.tables.set snapshot.table edited.table
          snapshots := w.snapshots.set index ⟨snapshot.table, edited.grammar⟩ })
  | .query index q =>
    match w.find? index with
    | none => Journaled.ofExcept (.error (.noGrammar index))
    | some (snapshot, t) => do
      let (answer, t) ← q.answer w.memos snapshot.grammar t
      return (answer, { w with tables := w.tables.set snapshot.table t })
  | .transform index tr =>
    match w.find? index with
    | none => Journaled.ofExcept (.error (.noGrammar index))
    | some (snapshot, t) => do
      let result ← tr.apply w.memos snapshot.grammar t
      return { w with memos := result.memos }.addDerived snapshot.table result.grammar
        result.table

/-- Carries out a command, leaving the workspace alone if it fails. -/
def advance (w : Workspace) (command : Command) : Progress :=
  let result := w.step command
  match result.outcome with
  | .ok (answer, next) => ⟨.ok answer, result.events, next⟩
  | .error e => ⟨.error e, result.events, w⟩

/-- The workspace after commands from left to right. -/
def run (w : Workspace) (commands : List Command) : Workspace :=
  commands.foldl (fun w command => (w.advance command).workspace) w

/-- What happens at commands from left to right. -/
def transcript (w : Workspace) : List Command → List Progress
  | [] => []
  | command :: rest =>
    let progress := w.advance command
    progress :: progress.workspace.transcript rest

end Workspace

end Chomsky
