import RuleCompiler.Pass.RuleByRule

/-! # Partial evaluation

Right sides and conditions are evaluated as far as the equations go. The equations come first,
against each other, round after round until nothing changes; the other rules follow in one
round. -/

namespace RuleCompiler

namespace Evaluator

/-- The right sides of the rewrites of a body evaluated. A rewrite whose right side evaluates to
itself stays. -/
def evaluateRights (e : Evaluator) : Term → Evaluation Term :=
  Term.replaceDown fun t => do
    match t.node with
    | .rewrite l r =>
      let r' ← e.evaluate r
      return some (← if r' == r then pure t else Term.rewrite l r')
    | _ => return none

/-- A rule evaluated; none where that changes nothing. Conditions that come to true are
dropped. -/
def evaluateRule? (e : Evaluator) (r : Rule) : Evaluation (Option Rule) := do
  let body ← e.evaluateRights r.body
  let requires ← r.requires.mapM e.evaluate
  let ensures ← r.ensures.mapM e.evaluate
  if body == r.body && requires == r.requires && ensures == r.ensures then return none
  let kept (conditions : List Term) := conditions.filter (!·.isTrue)
  return some (← (Rule.assemble r.kind r.attributes body (kept requires) (kept ensures)
    r.equations : Build _))

end Evaluator

namespace Definition

/-- The rules of the chosen kinds evaluated, as changes, and whether fuel ran out for one. -/
def evaluateRules (d : Definition) (chosen : RuleKind → Bool) (fuel : Nat) :
    Build (List (Option Rule) × Bool) := do
  let e := d.evaluator
  let results ← d.rules.mapM fun r =>
    if chosen r.kind then (e.evaluateRule? r).run { fuel } else return (none, { fuel })
  return (results.map (·.1), results.any (·.2.exhausted))

/-- The definition with rules replaced, each new one passed through `f` first. -/
def replaceRules (d : Definition) (changes : List (Option Rule)) (f : Rule → SessionM Rule) :
    SessionM Definition := do
  let rules ← (d.rules.zip changes).mapM fun (r, change) => match change with
    | some r' => f r'
    | none => return r
  return { d with rules }

/-- What rounds of evaluation have come to. -/
structure Rounds where
  definition : Definition
  changes : Nat := 0
  converged : Bool := false
  exhausted : Bool := false

/-- Evaluate the equations, at most so many rounds. Changed equations get new variables. -/
def evaluateEquations (fuel : Nat) : Nat → Rounds → SessionM Rounds
  | 0, rounds => return rounds
  | n + 1, rounds => do
    let (changes, exhausted) ←
      (rounds.definition.evaluateRules RuleKind.isEquation fuel : Build _)
    let rounds := { rounds with exhausted := rounds.exhausted || exhausted }
    match (changes.filter (·.isSome)).length with
    | 0 => return { rounds with converged := true }
    | count =>
      let definition ← rounds.definition.replaceRules changes (Rule.renameFresh "")
      evaluateEquations fuel n { rounds with definition, changes := rounds.changes + count }

end Definition

/-- The warning that the equations kept changing. -/
def noFixpointWarning (maxRounds : Nat) : Diagnostic :=
  (Diagnostic.warning .noFixpoint
    ("Partial evaluation of function rules did not reach a fixpoint after " ++ toString maxRounds ++
      " rounds.")).withNote "the equations are used as evaluated so far"

/-- The warning that fuel ran out. -/
def outOfFuelWarning (fuel : Nat) : Diagnostic :=
  (Diagnostic.warning .outOfFuel
    s!"Evaluation fuel of {fuel} steps ran out during partial evaluation.").withNote
    "the affected terms are kept partially evaluated"

def Pass.partialEvaluation : Pass where
  name := "partial_evaluation"
  needs := ["convert_lookups"]
  run d := do
    let options := (← get).options
    let rounds ← Definition.evaluateEquations options.fuel options.maxRounds { definition := d }
    if !rounds.converged then Session.report (noFixpointWarning options.maxRounds)
    let d := rounds.definition
    let (changes, exhausted) ← (d.evaluateRules (!·.isEquation) options.fuel : Build _)
    let d ← d.replaceRules changes pure
    if rounds.exhausted || exhausted then Session.report (outOfFuelWarning options.fuel)
    return (d, rounds.changes + (changes.filter (·.isSome)).length)

end RuleCompiler
