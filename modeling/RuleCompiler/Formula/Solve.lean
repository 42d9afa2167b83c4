import RuleCompiler.Formula.Decompose

/-! # Adding equations

Equations are decomposed one after the other, the parts of one before the next, and variables are
bound as soon as that is possible. What cannot be decided stays in the formula.

Without a binding every step makes the work lighter, and a binding leaves one variable fewer, so
the two bound the recursion. A formula that starts from a match may bind a variable to a term
that mentions it; `slack` leaves room for that. -/

namespace RuleCompiler

namespace Term

/-- A size in which collections weigh more than their parts one by one. -/
def weight : Term → Nat := fold fun t weights =>
  weights.foldr (· + ·) 0 + t.frames.length + match t.node with
    | .seq (_ :: _) _ | .list .. | .map .. | .set .. | .cells .. => 2
    | _ => 1

end Term

namespace Formula

abbrev Equation := Term × Term

/-- Room for formulas whose bindings mention bound variables. -/
def slack : Nat := 1000

/-- What to do with one equation: keep going with more equations in place of it, bind a variable,
or settle the formula. -/
inductive Move where
  | advance (f : Formula) (more : List Equation)
  | bind (v : Var) (value : Term)
  | stop (f : Formula)

/-- The move for one equation, its sides already instantiated. -/
def move (f : Formula) (l r : Term) : Build Move := do
  if l == r then return .advance f []
  match Lookup.ofEquation? l r with
  | some d =>
    let d ← d.mapTerms f.apply
    match d.resolve with
    | .equation a b => return .advance f [(a, b)]
    | .holds => return .advance f []
    | .fails => return .stop f.falsify
    | .pending => return .advance (f.keepLookup d) []
  | none =>
    match ← Decomposition.of f.isCall l r with
    | .holds => return .advance f []
    | .parts es => return .advance f es.reverse
    | .binding v value => return .bind v value
    | .undecided a b => return .advance (f.keepEquation a b) []
    | .fails => return .stop f.falsify

/-- Work through equations until a variable is bound; `bound` goes on from there. -/
def solveUpTo (bound : Formula → List Equation → Build Formula) :
    Nat → Formula → List Equation → Build Formula
  | _, f, [] => return f
  | 0, f, _ => return f
  | n + 1, f, e :: work => do
    if f.isFalse then return f
    match ← f.move (← f.apply e.1) (← f.apply e.2) with
    | .advance f more => solveUpTo bound n f (more ++ work)
    | .bind v value => bound (← f.extend v value) work
    | .stop f => return f

/-- The weight of a term under the bindings. One that they make a clash of weighs nothing: the work
ends when it gets there. -/
def weightOf (f : Formula) (t : Term) : Build Nat :=
  tryCatch (return (← f.apply t).weight) fun _ => return 0

/-- Work through equations, binding at most so many variables. -/
def solveBinding : Nat → Formula → List Equation → Build Formula
  | 0, f, _ => return f
  | n + 1, f, work => do
    let weights ← work.mapM fun e => return (← f.weightOf e.1) + (← f.weightOf e.2)
    solveUpTo (solveBinding n) (weights.foldr (· + ·) 0 + slack) f work

/-- The number of variables in equations and bindings. -/
def variableCount (f : Formula) (work : List Equation) : Nat :=
  (work.flatMap (fun e => e.1.vars ++ e.2.vars) ++
    f.substitution.bindings.flatMap fun b => b.1 :: b.2.vars).eraseDups.length

/-- Work through equations. -/
def solve (f : Formula) (work : List Equation) : Build Formula :=
  solveBinding (f.variableCount work + slack) f work

/-- Conjoin a lookup, and what it comes to if that is known. -/
def addLookup (f : Formula) (d : Lookup) : Build Formula := do
  if f.isFalse then return f
  let d ← d.mapTerms f.apply
  match d.resolve with
  | .equation l r => f.solve [(l, r)]
  | .holds => return f
  | .fails => return f.falsify
  | .pending => return f.keepLookup d

/-- Conjoin `l = r`. -/
def add (f : Formula) (l r : Term) : Build Formula := do
  if f.isFalse then return f
  match Lookup.ofEquation? l r with
  | some d => f.addLookup d
  | none => f.solve [(l, r)]

def addEquations (f : Formula) (es : List Equation) : Build Formula :=
  es.foldlM (fun f e => f.add e.1 e.2) f

def addLookups (f : Formula) (ds : List Lookup) : Build Formula := ds.foldlM addLookup f

/-- Conjoin every binding. -/
def addSubstitution (f : Formula) (σ : Substitution) : Build Formula :=
  σ.bindings.foldlM (fun f b => do f.add (← Term.var b.1) b.2) f

/-- Conjoin everything that `g` states. -/
def addAll (f g : Formula) : Build Formula := do
  if g.isFalse then return f.falsify
  let f ← f.addSubstitution g.substitution
  (← f.addEquations g.equations).addLookups g.lookups

/-- Everything pending added again, under the present bindings. -/
def readd (f : Formula) : Build Formula := do
  let g : Formula := { f with equations := [], lookups := [] }
  (← g.addEquations f.equations).addLookups f.lookups

/-- Whether a round left the formula as large as before, with the same bindings. -/
def isStable (f f' : Formula) : Bool :=
  f.equations.length == f'.equations.length && f.lookups.length == f'.lookups.length &&
    f.substitution == f'.substitution

def simplifyRounds : Nat → Formula → Build Formula
  | 0, f => return f
  | n + 1, f => do
    if f.isFalse then return f
    let f' ← f.readd
    if !f'.isFalse && f.isStable f' then return f' else simplifyRounds n f'

/-- Add everything pending again until nothing changes. Every second round that is not the last
binds a variable. -/
def simplify (f : Formula) : Build Formula :=
  let pending := f.equations ++ f.lookups.flatMap fun d => d.terms.map fun t => (t, t)
  simplifyRounds (2 * f.variableCount pending + slack) f

end Formula

/-- The most that can be said about when two terms are equal. -/
def unify (l r : Term) : Build Formula := Formula.truth.add l r

end RuleCompiler
