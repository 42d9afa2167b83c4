import RuleCompiler.Diagnostic.Queue
import RuleCompiler.Term.Identity

/-! # Sessions

What one compilation carries along: its options, the diagnostics so far, the next variable id that
no variable of the session has, and the number of the next node. -/

namespace RuleCompiler

structure Options where
  /-- Whether the variables of regular rules are renamed too. -/
  freshRules : Bool := false
  /-- Rounds of partial evaluation of equations. -/
  maxRounds : Nat := 16
  /-- Expansions allowed in one term. -/
  expansionLimit : Nat := 1024
  /-- Rule applications allowed in one evaluation. -/
  fuel : Nat := 10000
  partialEvaluation : Bool := true
  buildAutomaton : Bool := true
  /-- The cell whose content is indexed; `k` where that is a cell and none is given. -/
  computationCell : Option String := none
deriving Inhabited

structure Session where
  options : Options := {}
  queue : DiagnosticQueue := {}
  nextId : Nat := 1
  /-- The number that the next node will have. -/
  nodes : Nat := 1
deriving Inhabited

/-- What a session does may end with a clash; the session goes on from where it was then. -/
abbrev SessionM := ExceptT Clash (StateM Session)

instance : MonadLiftT Build SessionM where
  monadLift b := fun s =>
    let (result, nodes) := b s.nodes
    (result, { s with nodes })

namespace Session

/-- A variable id not handed out before. -/
def freshId : SessionM Nat := modifyGet fun s => (s.nextId, { s with nextId := s.nextId + 1 })

/-- The variable with a new id, its name behind `before`. -/
def rename (v : Var) (before : String := "") : SessionM Var := do
  return { v.withId (← freshId) with name := before ++ v.name }

/-- Run a session of its own, which takes its nodes from the present ones. -/
def run {α : Type} (options : Options) (a : SessionM α) : Build (α × Session) := fun nodes =>
  match a { options, nodes } with
  | (.ok a, s) => (.ok (a, s), s.nodes)
  | (.error clash, s) => (.error clash, s.nodes)

def report (d : Diagnostic) : SessionM Unit := modify fun s => { s with queue := s.queue.add d }

end Session

end RuleCompiler
