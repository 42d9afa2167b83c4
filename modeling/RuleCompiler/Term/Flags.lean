import RuleCompiler.Term.Walk

/-! # Flags

What occurs in a term, in one record: the part of a node's description that walks use to skip
subtrees. -/

namespace RuleCompiler

/-- What occurs in a term, the node itself included. -/
structure Flags where
  hasVariable : Bool := false
  hasRewrite : Bool := false
  hasHole : Bool := false
  hasDisjunction : Bool := false
  hasDontCare : Bool := false
deriving DecidableEq

namespace Flags

def or (a b : Flags) : Flags :=
  ⟨a.hasVariable || b.hasVariable, a.hasRewrite || b.hasRewrite, a.hasHole || b.hasHole,
    a.hasDisjunction || b.hasDisjunction, a.hasDontCare || b.hasDontCare⟩

def ofVar (v : Var) : Flags := { hasVariable := true, hasDontCare := v.isDontCare }

/-- What a node adds to the flags of its children, frames included. -/
def ofNode (n : Node Term) : Flags :=
  match n with
  | .var v => ofVar v
  | .hole => { hasHole := true }
  | .rewrite .. => { hasRewrite := true }
  | .disjunction _ => { hasDisjunction := true }
  | n => (n.frames.map ofVar).foldl or {}

end Flags

/-- The flags of a term, collected from its children. -/
def Term.flags : Term → Flags :=
  Term.fold fun t below => below.foldl Flags.or (Flags.ofNode t.node)

end RuleCompiler
