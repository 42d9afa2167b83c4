import RuleCompiler.Term.Render
import RuleCompiler.Term.Walk

/-! # Substitutions

Finitely many variables with a term each, listed by variable. No bound term mentions a bound
variable as long as bindings come from `extend`, so one pass of `apply` is enough. -/

namespace RuleCompiler

structure Substitution where
  bindings : List (Var × Term) := []
deriving BEq, Inhabited

namespace Substitution

def get? (σ : Substitution) (v : Var) : Option Term := SortedList.get? v σ.bindings

def contains (σ : Substitution) (v : Var) : Bool := (σ.get? v).isSome

def size (σ : Substitution) : Nat := σ.bindings.length

def isEmpty (σ : Substitution) : Bool := σ.bindings.isEmpty

/-- The bound terms. -/
def terms (σ : Substitution) : List Term := σ.bindings.map (·.2)

def insert (σ : Substitution) (v : Var) (t : Term) : Substitution :=
  ⟨SortedList.put Var.compareKeys v t σ.bindings⟩

/-- The term with the bound variables replaced; parts without any stay the nodes they are. -/
def apply (σ : Substitution) (t : Term) : Build Term := t.substitute σ.get?

/-- Bind for matching: `none` when the variable is bound to another term. -/
def bind? (σ : Substitution) (v : Var) (t : Term) : Option Substitution :=
  match σ.get? v with
  | some bound => if bound == t then some σ else none
  | none => some (σ.insert v t)

/-- Bind a variable that is not bound and put its value into the bound terms. -/
def extend (σ : Substitution) (v : Var) (t : Term) : Build Substitution := do
  let t ← σ.apply t
  let single (w : Var) := if w = v then some t else none
  let bindings ← σ.bindings.mapM fun b => return (b.1, ← b.2.substitute single)
  return Substitution.insert ⟨bindings⟩ v t

/-- The bindings of the variables that `keep` accepts. -/
def filter (keep : Var → Bool) (σ : Substitution) : Substitution :=
  ⟨σ.bindings.filter fun b => keep b.1⟩

def render (σ : Substitution) : String :=
  Term.braces (Term.commaSep (σ.bindings.map fun b => b.1.render ++ " |-> " ++ b.2.render))

/-- The bindings with the sorts of their variables. -/
def renderSorted (σ : Substitution) : String :=
  Term.braces (Term.commaSep (σ.bindings.map fun b => b.1.renderSorted ++ ": " ++ b.2.render))

end Substitution

end RuleCompiler
