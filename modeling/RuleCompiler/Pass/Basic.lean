import RuleCompiler.Definition

/-! # Passes

A pass turns the rules of a definition into others. A pipeline runs passes in order: each pass
has to come after the passes it needs, and a required pass cannot be disabled. A rule that fails
a pass is reported and dropped. -/

namespace RuleCompiler

structure Pass where
  name : String
  /-- Whether the pass cannot be disabled. -/
  isRequired : Bool := false
  /-- The names of passes that have to come before. -/
  needs : List String := []
  /-- The definition after the pass, and the number of rules that it changed or dropped. -/
  run : Definition → SessionM (Definition × Nat)

/-- What a pass makes of one rule. -/
inductive RuleOutcome where
  | kept
  | changed (r : Rule)
  | dropped (d : Diagnostic)
deriving Inhabited

namespace RuleOutcome

/-- A change, where there is one. -/
def ofOption : Option Rule → RuleOutcome
  | some r => changed r
  | none => kept

/-- What has become of a rule: a change where some term has become another node. -/
def ofRule (before after : Rule) : RuleOutcome :=
  if before.isSame after then kept else changed after

def isKept : RuleOutcome → Bool
  | kept => true
  | _ => false

/-- The rule that is left. -/
def rule? (r : Rule) : RuleOutcome → Option Rule
  | kept => some r
  | changed r => some r
  | dropped _ => none

def report : RuleOutcome → SessionM Unit
  | dropped d => Session.report d
  | _ => return

end RuleOutcome

/-- Deal with every rule in order. The other rules are seen as they were before. -/
def Definition.eachRule (d : Definition) (f : Rule → SessionM RuleOutcome) :
    SessionM (Definition × Nat) := do
  let outcomes ← d.rules.mapM fun r => do
    let outcome ← f r
    outcome.report
    return (r, outcome)
  return ({ d with rules := outcomes.filterMap fun (r, outcome) => outcome.rule? r },
    (outcomes.filter (!·.2.isKept)).length)

/-- Why a pipeline cannot run. -/
inductive PipelineError where
  /-- A pass that another one needs is not in the pipeline. -/
  | missing (pass needed : String)
  /-- A pass that another one needs comes after it. -/
  | outOfOrder (pass needed : String)
  | disabledRequired (pass : String)
deriving DecidableEq, Inhabited

namespace PipelineError

def pass : PipelineError → String
  | missing p _ | outOfOrder p _ | disabledRequired p => p

def reason : PipelineError → String
  | missing _ needed => s!"Required pass '{needed}' not found in pipeline"
  | outOfOrder p needed => s!"Required pass '{needed}' must run before '{p}'"
  | disabledRequired _ => "Cannot disable required pass"

def message (e : PipelineError) : String := s!"Pass '{e.pass}' failed: {e.reason}"

end PipelineError

structure Pipeline where
  passes : List Pass
  /-- The names of passes to skip. -/
  disabled : List String := []

namespace Pipeline

def names (p : Pipeline) : List String := p.passes.map (·.name)

/-- What is wrong with the needs of a pass, when the passes in `before` come before it. -/
def unmetNeed? (names before : List String) (pass : Pass) : Option PipelineError :=
  pass.needs.findSome? fun needed =>
    if !names.contains needed then some (.missing pass.name needed)
    else if !before.contains needed then some (.outOfOrder pass.name needed)
    else none

/-- Check that every pass comes after those that it needs. -/
def checkNeeds (names : List String) : List String → List Pass → Except PipelineError Unit
  | _, [] => .ok ()
  | before, pass :: rest =>
    match unmetNeed? names before pass with
    | some e => .error e
    | none => checkNeeds names (pass.name :: before) rest

/-- The passes that will run, and what stops them, if anything does. -/
structure Plan where
  passes : List Pass
  obstacle : Option PipelineError := none

/-- The passes that are not disabled, as far as the first required one that is. -/
def planFrom (disabled : List String) : List Pass → Plan
  | [] => ⟨[], none⟩
  | pass :: rest =>
    if !disabled.contains pass.name then
      let plan := planFrom disabled rest
      { plan with passes := pass :: plan.passes }
    else if pass.isRequired then ⟨[], some (.disabledRequired pass.name)⟩
    else planFrom disabled rest

def plan (p : Pipeline) : Plan :=
  match checkNeeds p.names [] p.passes with
  | .ok () => planFrom p.disabled p.passes
  | .error e => ⟨[], some e⟩

/-- Run the passes of the plan one after the other. -/
def run (p : Pipeline) (d : Definition) : SessionM (Except PipelineError Definition) := do
  let plan := p.plan
  let d ← plan.passes.foldlM (fun d pass => return (← pass.run d).1) d
  match plan.obstacle with
  | some e => return .error e
  | none => return .ok d

end Pipeline

end RuleCompiler
