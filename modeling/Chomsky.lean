import Chomsky.Symbol
import Chomsky.Symbol.Table
import Chomsky.Symbol.Set
import Chomsky.Symbol.Relation
import Chomsky.Text.Blank
import Chomsky.Text.Printable
import Chomsky.Text.Quoted
import Chomsky.Grammar.Rule
import Chomsky.Grammar.Distinct
import Chomsky.Grammar.Basic
import Chomsky.Grammar.Printer
import Chomsky.Grammar.Validity
import Chomsky.Grammar.Occurrences
import Chomsky.Grammar.Closure
import Chomsky.Analysis.Derivable
import Chomsky.Analysis.Reachable
import Chomsky.Analysis.Usefulness
import Chomsky.Text.Decimal
import Chomsky.Journal
import Chomsky.Grammar.Fresh
import Chomsky.NormalForm.Naming
import Chomsky.NormalForm.Useful
import Chomsky.NormalForm.EpsilonFree
import Chomsky.NormalForm.UnitFree
import Chomsky.NormalForm.Binary
import Chomsky.NormalForm.Pipeline
import Chomsky.Text.NameSet
import Chomsky.Description
import Chomsky.Bnf.Token
import Chomsky.Bnf.Lexer
import Chomsky.Bnf.Layout
import Chomsky.Bnf.Parser
import Chomsky.Symbol.SetStore
import Chomsky.Analysis.Report
import Chomsky.Workspace.Basic
import Chomsky.Workspace.Edit
import Chomsky.Workspace.Query
import Chomsky.Workspace.Transform
import Chomsky.Workspace
import Chomsky.Datum
import Chomsky.Grammar.Covered
import Chomsky.Derivation
import Chomsky.Proofs.Words
import Chomsky.Proofs.Closure
import Chomsky.Proofs.TransitiveClosure
import Chomsky.Proofs.Reachability
import Chomsky.Proofs.FreshSymbols
import Chomsky.Proofs.WellFormed
import Chomsky.Proofs.Useful
import Chomsky.Proofs.EpsilonFree
import Chomsky.Proofs.UnitFree
import Chomsky.Proofs.Splitting
import Chomsky.Proofs.BinaryCoverage
import Chomsky.Proofs.BlockNames
import Chomsky.Proofs.Binary
import Chomsky.Proofs.Stages
import Chomsky.Proofs.Normalization
import Chomsky.Proofs.Renaming
import Chomsky.Proofs.SplitRenaming
import Chomsky.Proofs.Invariance
import Chomsky.Proofs.Names
import Chomsky.Proofs.SortedRules
import Chomsky.Proofs.ComputedStages
import Chomsky.Proofs.TrimNormal
import Chomsky.Proofs.Restart
import Chomsky.Proofs.Idempotence
import Chomsky.Proofs.Copies
import Chomsky.Proofs.SplitCopies
import Chomsky.Proofs.History
import Chomsky.Proofs.Described
import Chomsky.Proofs.Layout
import Chomsky.Proofs.PrintedRules
import Chomsky.Proofs.Lexing
import Chomsky.Proofs.Reading
import Chomsky.Proofs.RoundTrip
import Chomsky.Proofs.EpsilonWords
import Chomsky.Proofs.BinarySteps
import Chomsky.Proofs.ReservedMark
import Chomsky.Proofs.WorkspaceSteps
import Chomsky.Proofs.Ranges
import Chomsky.Proofs.SourcedRuns
import Chomsky.Proofs.Snapshots
import Chomsky.Proofs.UnitRules
import Chomsky.Proofs.Removals
import Chomsky.Proofs.Definitions
import Chomsky.Proofs.Unsplitting
import Chomsky.Proofs.UsefulRules
import Chomsky.Proofs.Analyses
import Chomsky.Proofs.FirstFault
import Chomsky.Proofs.Insertions
import Chomsky.Proofs.LeastClosure
import Chomsky.Proofs.CanonicalRules
import Chomsky.Proofs.Building
import Chomsky.Proofs.LoadErrors
import Chomsky.Proofs.VariantOrder
import Chomsky.Proofs.DerivationRelations
import Chomsky.Proofs.SetRefinement
import Chomsky.Proofs.LeastNames
