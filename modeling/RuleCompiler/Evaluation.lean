import RuleCompiler.Rule.Basic
import RuleCompiler.Signature

/-! # Evaluation

Calls are evaluated from the leaves up, by built-in operations first and by rules after them. A
rule applies to a call when it matches, its lookups are solved and its conditions evaluate to
true. Calls may hold variables: a rule that may still apply to some instance of a call keeps the
rules after it from being used.

Every application of a rule takes one unit of fuel. Conditions are evaluated inside the
evaluation that needs them, and an applied rule's result inside the one that applied it; how deep
that goes is bounded by a limit of its own. -/

namespace RuleCompiler

/-- The rule applications that an evaluation may still make, and what came of it so far. -/
structure Budget where
  fuel : Nat
  /-- Rule applications made. -/
  steps : Nat := 0
  /-- Whether a rule application was refused for lack of fuel. -/
  exhausted : Bool := false
  /-- Whether an evaluation was refused for being nested too deep. -/
  tooDeep : Bool := false
deriving DecidableEq, Inhabited

/-- Evaluation makes nodes as it goes; parts that stay as they are stay the nodes they are. -/
abbrev Evaluation := StateT Budget Build

/-- Take fuel for one rule application, if there is some. -/
def Budget.spend : Evaluation Bool := do
  let b ← get
  match b.fuel with
  | 0 => set { b with exhausted := true }; return false
  | fuel + 1 => set { b with fuel, steps := b.steps + 1 }; return true

/-- How deep evaluations may be nested. -/
def nestingLimit : Nat := 1000000

/-- What evaluation depends on. -/
structure Evaluator where
  signature : Signature
  /-- The labels of functions. -/
  functions : List String
  /-- Equations that define functions, by the label at their head. -/
  functionRules : List (String × Rule)
  /-- Equations that apply anywhere, by the label at their head. -/
  anywhereRules : List (String × Rule)
deriving Inhabited

/-- What trying one rule on one call comes to. -/
inductive Attempt where
  | applied (result : Term)
  /-- No instance of the call is one of the rule. -/
  | notApplicable
  | undecided
deriving Inhabited

namespace Evaluator

/-- The rules of a kind with the labels at their heads. -/
def headed (kind : RuleKind) (rules : List Rule) : List (String × Rule) :=
  (rules.filter (·.kind == kind)).filterMap fun r => r.head?.map (·, r)

def ofRules (signature : Signature) (rules : List Rule) : Evaluator where
  signature
  functions := signature.labels.functions
  functionRules := headed .function rules
  anywhereRules := headed .anywhere rules

/-- The rules filed under a label, in order. -/
def filed (label : String) (rules : List (String × Rule)) : List Rule :=
  (rules.filter (·.1 == label)).map (·.2)

/-- The id that keeps the variables of a rule apart from those of a call. -/
def apartId : Nat := UInt32.size - 1

/-- The pattern with variables that no call has. -/
def apart : Term → Build Term :=
  Term.rename fun v => if v.isDontCare then none else some (v.withId apartId)

/-- Whether the arguments of some instance of the call may be those of an instance of the
pattern. -/
def mayUnify (e : Evaluator) (pattern call : Term) : Build Bool := do
  match pattern.node, call.node with
  | .app _ ps _, .app _ args _ =>
    if ps.length != args.length then return false
    if args.all fun t => t.isGround && !t.mentions e.functions then return false
    let equations ← (ps.zip args).mapM fun (p, t) => return (← apart p, t)
    let f ← (Formula.truth e.functions).addEquations equations
    return !(← f.simplify).isFalse
  | _, _ => return false

/-- The formula of one match: what the pattern binds, and the lookups of the rule. -/
def formulaOf (functions : List String) (r : Rule) (σ : Substitution) : Build Formula := do
  (← (Formula.ofSubstitution σ functions).addAll r.lookups).simplify

section Step
/-! ### One call

`go` evaluates the terms that come up on the way. -/

variable (go : Term → Evaluation Term)

/-- Whether a condition evaluates to true or to false. -/
def holds (condition : Term) : Evaluation (Option Bool) :=
  return (← go condition).boolValue?

/-- Whether all conditions hold under the bindings of a formula. The first that does not, or is
not decided, settles it. -/
def allHold (f : Formula) : List Term → Evaluation (Option Bool)
  | [] => return some true
  | c :: cs => do
    match ← holds go (← f.apply c) with
    | some true => allHold f cs
    | verdict => return verdict

/-- Use the first match under which lookups and conditions hold. -/
def attemptMatches (functions : List String) (r : Rule) (undecided : Bool) :
    List Substitution → Evaluation Attempt
  | [] => return if undecided then .undecided else .notApplicable
  | σ :: rest => do
    let f ← formulaOf functions r σ
    if f.isFalse then attemptMatches functions r undecided rest
    else if !f.isSolved then attemptMatches functions r true rest
    else match ← allHold go f r.requires with
      | some true => return .applied (← f.apply r.right)
      | some false => attemptMatches functions r undecided rest
      | none => attemptMatches functions r true rest

/-- Try one rule on one call. -/
def attempt (e : Evaluator) (r : Rule) (call : Term) : Evaluation Attempt := do
  match ← (matchAll r.left call : Build _) with
  | [] => return if ← e.mayUnify r.left call then .undecided else .notApplicable
  | matches' => attemptMatches go e.functions r false matches'

/-- The result of the first rule that applies. A rule that is not decided hides the ones after
it where `strict`. -/
def firstResult (e : Evaluator) (strict : Bool) (call : Term) : List Rule → Evaluation (Option Term)
  | [] => return none
  | r :: rs => do
    match ← attempt go e r call with
    | .applied result => return some result
    | .notApplicable => firstResult e strict call rs
    | .undecided => if strict then return none else firstResult e strict call rs

/-- What rules make of a call. -/
def rewriteCall (e : Evaluator) (label : String) (call : Term) : Evaluation (Option Term) := do
  match ← firstResult go e true call (filed label e.functionRules) with
  | some result => return some result
  | none => firstResult go e false call (filed label e.anywhereRules)

/-- The result of the operation that is built into a label. -/
def applyBuiltin (e : Evaluator) (label : String) (args : List Term) : Build (Option Term) :=
  match e.signature.builtin? label with
  | some op => op.apply e.functions args
  | none => return none

/-- One node whose children are evaluated. -/
def reduce (e : Evaluator) (t : Term) : Evaluation Term := do
  match t.node with
  | .app (.const label) args _ =>
    match ← (applyBuiltin e label args : Build _) with
    | some result => return result
    | none =>
      match ← rewriteCall go e label t with
      | some result => if ← Budget.spend then go result else return t
      | none => return t
  | _ => return t

end Step

/-- Evaluation with so many evaluations nested at most. -/
def within (e : Evaluator) : Nat → Term → Evaluation Term
  | 0, t => do
    modify fun b => { b with tooDeep := true }
    return t
  | depth + 1, t => t.replaceUp (reduce (within e depth) e)

/-- The term with every call evaluated that can be. -/
def evaluate (e : Evaluator) : Term → Evaluation Term := e.within nestingLimit

/-- Whether a condition evaluates to true or to false with the given fuel. -/
def verdict (e : Evaluator) (fuel : Nat) (condition : Term) : Build (Option Bool) :=
  (holds e.evaluate condition).run' { fuel }

end Evaluator

end RuleCompiler
