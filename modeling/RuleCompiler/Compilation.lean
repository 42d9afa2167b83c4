import RuleCompiler.Pass.Default
import RuleCompiler.Source.Closure

/-! # Compilation

Modules are flattened, sentences lowered, and the passes of a pipeline run over the rules. Errors
in imports are fatal. An error in one rule drops the rule and compilation goes on, so that all of
them are reported; it fails at the end. -/

namespace RuleCompiler

/-- A definition that compiled, and what it was warned of. -/
structure Compiled where
  definition : Definition
  warnings : List Diagnostic

inductive CompilationError where
  /-- So many errors were found. -/
  | failed (errors : Nat) (diagnostics : List Diagnostic)
  /-- The pipeline cannot run. -/
  | pipeline (e : PipelineError)

namespace CompilationError

def message : CompilationError → String
  | failed n _ => s!"compilation failed with {n} error(s)"
  | pipeline e => e.message

def diagnostics : CompilationError → List Diagnostic
  | failed _ ds => ds
  | pipeline _ => []

end CompilationError

/-- Lower a rule, or report why it cannot be. -/
def Signature.lowerRule? (sig : Signature) (r : SourceRule) : SessionM (Option Rule) := do
  match ← (sig.lowerRule r).run with
  | .ok r => return some r
  | .error e => Session.report e.diagnostic; return none

/-- The cell that is indexed, by the options or by its name. -/
def computationCell? (options : Options) (cells : CellTable) : Option String :=
  options.computationCell <|> if cells.isCell "k" then some "k" else none

/-- The definition of a flat module, before any pass. -/
def FlatModule.lower (m : FlatModule) : SessionM Definition := do
  let (cells, reports) := CellTable.ofConfigurations m.configurations
  reports.forM Session.report
  let signature : Signature := { labels := .ofProductions m.productions, cells }
  let options := (← get).options
  let rules ← m.rules.filterMapM signature.lowerRule?
  return Definition.withTable {
    signature, rules
    priorities := m.priorities
    indexing := { computationCell := computationCell? options cells }
    fuel := options.fuel }

/-- The definition that a source definition stands for, before any pass. -/
def SourceDefinition.lower (d : SourceDefinition) : SessionM (Option Definition) := do
  match d.flatten with
  | .ok m => return some (← m.lower)
  | .error es => es.forM fun e => Session.report e.diagnostic; return none

/-- The compiled definition, if there is one and no error was reported. -/
def Session.conclude (s : Session) : Option Definition → Except CompilationError Compiled
  | some d =>
    if s.queue.hasErrors then .error (.failed s.queue.errorCount s.queue.report)
    else .ok ⟨d.withTable, s.queue.report⟩
  | none => .error (.failed s.queue.errorCount s.queue.report)

/-- Compile with a pipeline of one's own, in a session of its own. -/
def compileWith (pipeline : Pipeline) (options : Options) (d : SourceDefinition) :
    Build (Except CompilationError Compiled) := do
  let (outcome, s) ← Session.run options do
    match ← d.lower with
    | none => return .ok none
    | some lowered => return (← pipeline.run lowered).map some
  match outcome with
  | .error e => return .error (.pipeline e)
  | .ok d => return s.conclude d

/-- The default pipeline, without partial evaluation where the options say so. -/
def Options.pipeline (options : Options) : Pipeline :=
  { Pipeline.default with
    disabled := if options.partialEvaluation then [] else ["partial_evaluation"] }

/-- Compile a definition. -/
def compile (options : Options) (d : SourceDefinition) :
    Build (Except CompilationError Compiled) :=
  compileWith options.pipeline options d

end RuleCompiler
