import RuleCompiler.Pass.Expansion
import RuleCompiler.Pass.PartialEvaluation
import RuleCompiler.Pass.RewriteLifting
import RuleCompiler.Pass.RuleByRule

/-! # The default pipeline -/

namespace RuleCompiler

/-- Merge the regular rules, unless the options say not to. -/
def Pass.merging : Pass where
  name := "build_automaton"
  run d := do
    if (← get).options.buildAutomaton then
      let automaton ← (Automaton.ofRules? d.rules : Build _)
      return ({ d with automaton }, if automaton.isSome then 1 else 0)
    else return ({ d with automaton := none }, 0)

/-- Every pass. Operators are flattened once more after expansion, which may splice operands into
lists. -/
def Pass.all : List Pass :=
  [rewriteLifting, operatorFlattening, expansion, operatorFlattening, lookups, freshNaming,
    singleVariables, partialEvaluation, merging]

def Pass.ofName? (name : String) : Option Pass := all.find? (·.name == name)

def Pipeline.default : Pipeline := ⟨Pass.all, []⟩

end RuleCompiler
