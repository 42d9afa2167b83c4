import RuleCompiler.Compilation
import RuleCompiler.Firing
import RuleCompiler.Formula.Choices
import RuleCompiler.Proofs.Builder.Canonical
import RuleCompiler.Proofs.Builder.Chunks
import RuleCompiler.Proofs.Builtin
import RuleCompiler.Proofs.CellEffects
import RuleCompiler.Proofs.Composition.Runs
import RuleCompiler.Proofs.DiagnosticQueue
import RuleCompiler.Proofs.Evaluation
import RuleCompiler.Proofs.Expansion.Normalization
import RuleCompiler.Proofs.Firing
import RuleCompiler.Proofs.Flattening.RoundTrip
import RuleCompiler.Proofs.Flattening.Runs
import RuleCompiler.Proofs.Formula.Alternatives
import RuleCompiler.Proofs.Formula.Idempotent
import RuleCompiler.Proofs.Formula.MostGeneral
import RuleCompiler.Proofs.FreshConstants
import RuleCompiler.Proofs.Imports
import RuleCompiler.Proofs.Index.Candidates
import RuleCompiler.Proofs.Index.Table
import RuleCompiler.Proofs.Keeping.Exact
import RuleCompiler.Proofs.Lowering
import RuleCompiler.Proofs.Matching.Completeness
import RuleCompiler.Proofs.Matching.Disjunction
import RuleCompiler.Proofs.Matching.FirstOrder
import RuleCompiler.Proofs.Matching.LeftSide
import RuleCompiler.Proofs.Matching.Operands
import RuleCompiler.Proofs.Merging.Members
import RuleCompiler.Proofs.Nesting
import RuleCompiler.Proofs.Pipeline
import RuleCompiler.Proofs.Rebuilding
import RuleCompiler.Proofs.RewriteLifting
import RuleCompiler.Proofs.Rounds
import RuleCompiler.Proofs.RuleSet
import RuleCompiler.Proofs.Sharing.Editing
import RuleCompiler.Proofs.Sharing.Unshare
import RuleCompiler.Proofs.Skipping
import RuleCompiler.Proofs.Stability
import RuleCompiler.Proofs.StringTable
import RuleCompiler.Term.Flags
