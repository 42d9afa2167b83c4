import RuleCompiler.Pass.Basic

/-! # Expansion

Expansion rules are applied from the top down, round after round, until none matches anywhere in
the term. Every application counts toward a limit; beyond it the expansion is taken not to
end. -/

namespace RuleCompiler

/-- The rules that terms are expanded by. -/
structure Expander where
  rules : List Rule
  /-- Applications allowed in one term. -/
  limit : Nat

namespace Expander

def ofRules (rules : List Rule) (limit : Nat) : Expander :=
  ⟨rules.filter (·.kind == .expansion), limit⟩

/-- Whether the conditions of a rule are plainly true under a match. -/
def isEnabled (r : Rule) (σ : Substitution) : Build Bool :=
  r.requires.allM fun c => return (← σ.apply c).isTrue

/-- The expansion of a node by the first rule and match that is enabled. -/
def expandNode? (e : Expander) (t : Term) : Build (Option Term) :=
  e.rules.findSomeM? fun r => do
    (← matchAll r.left t).findSomeM? fun σ => do
      if ← isEnabled r σ then return some (← σ.apply r.right) else return none

/-- One round: every node that is not below an expanded one is expanded where it can be. The state
counts the expansions. -/
def round (e : Expander) : Term → StateT Nat Build Term :=
  Term.replaceDown fun t => do
    let expansion ← (e.expandNode? t : Build _)
    if expansion.isSome then modify (· + 1)
    return expansion

/-- So many rounds, after `steps` expansions. -/
def rounds (e : Expander) : Nat → Nat → Term → Build (Except Nat Term)
  | n, steps, t => do
    let (t', applied) ← (e.round t).run 0
    if applied = 0 then return .ok t
    if e.limit < steps + applied then return .error (steps + applied)
    match n with
    | 0 => return .ok t
    | n + 1 => rounds e n (steps + applied) t'

/-- The term with everything expanded; an error holds the number of expansions that went beyond
the limit. Every round but the last expands something, so the limit bounds the rounds. -/
def expand (e : Expander) (t : Term) : Build (Except Nat Term) := e.rounds e.limit 0 t

/-- The report of a rule whose expansion does not end. -/
def divergence (e : Expander) (r : Rule) (steps : Nat) : Diagnostic :=
  ((Diagnostic.error .endlessMacro s!"Macro expansion did not terminate after {steps} steps.").at?
    r.location? "while expanding this rule").withNote s!"the expansion limit is {e.limit}"

/-- A term of a rule expanded. One whose expansion does not end stays as it is, and the state tells
after how many expansions it was given up. -/
def expandOrKeep (e : Expander) (t : Term) : StateT (Option Nat) Build Term := do
  match ← (e.expand t : Build _) with
  | .ok u => return u
  | .error steps => set (some steps); return t

/-- A rule with its terms expanded. Expansion rules themselves are left alone. -/
def expandRule (e : Expander) (r : Rule) : Build RuleOutcome := do
  if r.kind == .expansion then return .kept
  match ← (r.map e.expandOrKeep).run none with
  | (_, some steps) => return .dropped (e.divergence r steps)
  | (r', none) => return .ofRule r r'

end Expander

/-- The expander of a definition. -/
def Definition.expander (d : Definition) (limit : Nat) : Expander := .ofRules d.rules limit

def Pass.expansion : Pass where
  name := "expand_macros"
  needs := ["bubble_rewrites"]
  run d := do
    let e := d.expander (← get).options.expansionLimit
    if e.rules.isEmpty then return (d, 0)
    d.eachRule fun r => e.expandRule r

end RuleCompiler
