import RuleCompiler.Automaton.Basic
import RuleCompiler.Evaluation
import RuleCompiler.Index.Table
import RuleCompiler.Lowering
import RuleCompiler.Operators

/-! # Definitions

The rules of a program with all that is needed to run them. The id of a rule is its position. -/

namespace RuleCompiler

structure Definition where
  signature : Signature := {}
  rules : List Rule := []
  /-- Blocks of labels, the highest priority first. -/
  priorities : List (List String) := []
  indexing : IndexSettings := {}
  /-- The regular rules by index. -/
  table : IndexTable := {}
  automaton : Option Automaton := none
  /-- Rule applications allowed in one evaluation. -/
  fuel : Nat
deriving Inhabited

namespace Definition

def rule? (d : Definition) (id : Nat) : Option Rule := d.rules[id]?

def countOf (d : Definition) (kind : RuleKind) : Nat :=
  (d.rules.filter (·.kind == kind)).length

/-- Labels whose applications are evaluated. -/
def functions (d : Definition) : List String := d.signature.labels.functions

/-- The constant of a label that takes no arguments and is no function and no collection. -/
def constant? (d : Definition) (label : String) : Option Term :=
  let labels := d.signature.labels
  (labels.get? label).bind fun info =>
    if info.arity = 0 && !labels.isFunction label && (labels.collection? label).isNone then
      some (.constant label info.sort)
    else none

/-- The evaluator of the present rules. -/
def evaluator (d : Definition) : Evaluator := .ofRules d.signature d.rules

/-- The definition with the regular rules filed by their present pairs. -/
def withTable (d : Definition) : Definition :=
  let file (table : IndexTable) (r : Nat × Rule) := table.insert r.1 (r.2.pair d.indexing)
  { d with table := (Automaton.regularRules d.rules).foldl file {} }

/-- Regular rules whose index pair admits the subject. -/
def candidates (d : Definition) (subject : Term) : List Nat :=
  d.table.candidates (d.indexing.pair subject)

/-- The term that a source term stands for, in the form that compiled rules have. -/
def lower (d : Definition) (t : SourceTerm) : Lower Term := do
  (← d.signature.lower t).flatten d.signature.labels

end Definition

end RuleCompiler
