import RuleCompiler.Definition
import RuleCompiler.Formula.Choices

/-! # Firing rules

A rule that matches a subject fires once for every way to solve its lookups under which its
conditions hold. The result is built along the subject: what the pattern leaves alone is taken
over from it. -/

namespace RuleCompiler

/-- The application of a rule and what it comes to. -/
structure Firing where
  rule : Nat
  result : Term
deriving BEq, Inhabited

/-! ### Building a result -/

namespace Rebuild

/-- What a pattern makes of a subject; nothing where the two cannot be walked together. -/
abbrev Along := Term → OptionT Build Term

/-- A cell of the subject, and whether a cell of the pattern has taken it. -/
abbrev Place := Cell × Bool

/-- Replace the content of the first cell that fits and is not taken. -/
def takeCell (fits : Cell → Build Bool) (inner : Along) : List Place → OptionT Build (List Place)
  | [] => failure
  | (c, true) :: cs => return (c, true) :: (← takeCell fits inner cs)
  | (c, false) :: cs => do
    if ← fits c then return ({ c with content := ← inner c.content }, true) :: cs
    else return (c, false) :: (← takeCell fits inner cs)

/-- Pair the cells of a pattern that hold a rewrite with the cells of the subject they matched,
each with the first that still fits. -/
def cells (fits : Cell → Cell → Build Bool) (pattern : List (Cell × Along))
    (subject : List Cell) : OptionT Build (List Cell) := do
  let rewritten := pattern.filter fun p => p.1.content.hasRewrite
  let places ← rewritten.foldlM (fun places (p, inner) => takeCell (fits p) inner places)
    (subject.map fun c => (c, false))
  return places.map Prod.fst

/-- Pair the items of a pattern with the first items of the subject; only a framed pattern leaves
some over. -/
def sequence (pattern : List Along) (isFramed : Bool) (items : List Term) (frame : Option Var) :
    OptionT Build Term := do
  if items.length < pattern.length ||
      (!isFramed && (pattern.length < items.length || frame.isSome)) then failure
  let front ← (pattern.zip items).mapM fun (inner, t) => inner t
  Term.sequenceFrom (front ++ items.drop pattern.length) frame

/-- One node of a pattern along a subject, for one of the rules. -/
def node (rule : Nat) (σ : Substitution) (pattern : Term) (below : List Along) : Along :=
  fun subject => do
    if !pattern.hasRewrite then return subject
    match pattern.node, subject.node with
    | .rewrite _ right, _ =>
      match right.node with
      | .rightSides byRule =>
        match byRule[rule]? with
        | some (some right) => σ.apply right
        | _ => return subject
      | _ => σ.apply right
    | .disjunction branches, _ =>
      match (branches.zip below).find? (·.1.2.contains rule) with
      | some (_, inner) => inner subject
      | none => failure
    | .app _ ps _, .app label args s =>
      if args.length != ps.length then failure
      let inners := below.drop (below.length - ps.length)
      Term.app label (← (inners.zip args).mapM fun (inner, t) => inner t) s
    | .seq items frame, _ =>
      let (ts, tFrame) := match subject.node with
        | .seq ts tFrame => (ts, tFrame)
        | _ => ([subject], none)
      sequence (below.take items.length) frame.isSome ts tFrame
    | .cells ps _, .cells cs frames =>
      let fits (p c : Cell) : Build Bool := do
        if c.label != p.label then return false
        return !(← matchFrom p.content c.content ⟨σ, some (.singleton rule)⟩).isEmpty
      CellParts.build ⟨← cells fits (ps.zip below) cs, frames⟩
    | _, _ => failure

end Rebuild

/-- The result of a rule along the subject; none where pattern and subject cannot be walked
together. -/
def rebuildAlong (rule : Nat) (σ : Substitution) (pattern subject : Term) : Build (Option Term) :=
  (pattern.fold (Rebuild.node rule σ) subject).run

/-- The result of a rule. -/
def buildResult (rule : Nat) (r : Rule) (pattern subject : Term) (σ : Substitution) :
    Build Term := do
  match ← rebuildAlong rule σ pattern subject with
  | some t => return t
  | none => σ.apply r.right

/-! ### Firing -/

/-- A constant of a sort; different numbers give different constants. -/
def freshConstant (s : SortName) (n : Nat) : Term :=
  if s = .int then .int n else .token s (s.name ++ "!" ++ toString n)

/-- New constants for the variables that are not bound yet, numbered in order. -/
def bindFresh (vars : List Var) (σ : Substitution) : Substitution :=
  (vars.mapIdx fun i v => (v, freshConstant v.sort (i + 1))).foldl
    (fun σ (v, t) => (σ.bind? v t).getD σ) σ

/-- Check the conditions under one solution of the lookups, then build the result and evaluate
it. -/
def fireSolution (e : Evaluator) (id : Nat) (r : Rule) (resultOf : Substitution → Build Term)
    (f : Formula) : Evaluation (Option Firing) := do
  match ← Evaluator.allHold e.evaluate f r.requires with
  | some true =>
    let σ := bindFresh r.freshConstants f.substitution
    return some ⟨id, ← e.evaluate (← resultOf σ)⟩
  | _ => return none

/-- Every firing of a rule for one match: one solution after the other is found and tried. -/
def fireMatch (d : Definition) (e : Evaluator) (id : Nat) (r : Rule) (pattern subject : Term)
    (σ : Substitution) : Build (List Firing) := do
  (← Evaluator.formulaOf e.functions r σ).eachChoice fun f =>
    if f.isSolved then
      (fireSolution e id r (buildResult id r pattern subject) f).run' { fuel := d.fuel }
    else return none

namespace Definition

/-- Every firing of one rule, found by matching its left side. -/
def fireRule (d : Definition) (id : Nat) (subject : Term) : Build (List Firing) := do
  match d.rule? id with
  | none => return []
  | some r =>
    let e := d.evaluator
    (← matchAll r.left subject).flatMapM (fireMatch d e id r r.body subject)

/-- Every firing of a member of the automaton, found by matching its pattern. -/
def fireAutomaton (d : Definition) (a : Automaton) (subject : Term) : Build (List Firing) := do
  let e := d.evaluator
  (← matchFrom a.pattern subject { rules := some a.rules }).flatMapM fun state =>
    (state.rules.getD a.rules).toList.flatMapM fun id =>
      match a.member? id with
      | none => return []
      | some r => fireMatch d e id r a.pattern subject state.substitution

/-- Every step of the program from the subject: by the automaton where there is one, otherwise
by the candidates that the index admits. An editable node of the subject that several results
would share is copied for all but the first. -/
def step (d : Definition) (subject : Term) : Build (List Firing) := do
  let firings ← match d.automaton with
    | some a => d.fireAutomaton a subject
    | none => (d.candidates subject).flatMapM fun id => d.fireRule id subject
  let results ← Term.unshareAll (firings.map (·.result))
  return firings.zipWith (fun f result => { f with result }) results

/-- The first firing of every step of a run, at most so many. -/
def run (d : Definition) : Nat → Term → Build (List Firing)
  | 0, _ => return []
  | n + 1, subject => do
    match ← d.step subject with
    | [] => return []
    | f :: _ => return f :: (← run d n f.result)

end Definition

end RuleCompiler
