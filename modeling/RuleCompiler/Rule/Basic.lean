import RuleCompiler.Formula.Solve
import RuleCompiler.Index.Pair
import RuleCompiler.LabelTable
import RuleCompiler.Rule.CellEffects
import RuleCompiler.Term.Sharing

/-! # Rules

A rule is a term with rewrites in it, conditions before and after, and lookups: equations between
a value and the pattern it is bound to. Left side, right side and what the lookups state follow
from these; `assemble` computes them once, so that everything made from a rule shares its nodes.
The parts of a rule go into every result and are never editable. -/

namespace RuleCompiler

/-! ### Kinds -/

/-- What a rule is for. -/
inductive RuleKind where
  /-- A step of the running program. -/
  | regular
  /-- An equation that defines a function. -/
  | function
  /-- An equation for a constructor, applied wherever its head occurs. -/
  | anywhere
  /-- Expanded away before the program runs. -/
  | expansion
  | pattern
  | patternFolding
deriving DecidableEq, Inhabited

namespace RuleKind

def text : RuleKind → String
  | regular => "regular"
  | function => "function"
  | anywhere => "anywhere"
  | expansion => "macro"
  | pattern => "pattern"
  | patternFolding => "pattern-folding"

def all : List RuleKind := [regular, function, anywhere, expansion, pattern, patternFolding]

def ofText? (s : String) : Option RuleKind := all.find? (·.text == s)

/-- The kind by the rule's own attributes, then by what its head label is declared to be. -/
def classify (a : Attributes) (head : Option String) (labels : LabelTable) : RuleKind :=
  if a.contains "macro" || a.contains "alias" then expansion
  else if a.contains "pattern-folding" then patternFolding
  else if a.contains "pattern" then pattern
  else if a.contains "anywhere" || head.any labels.isAnywhere then anywhere
  else if a.contains "function" || head.any labels.isFunction then function
  else regular

/-- Whether rules of the kind are instantiated inside other rules. -/
def isEquation : RuleKind → Bool
  | function | anywhere => true
  | _ => false

end RuleKind

/-! ### Sides and lookups -/

structure Rule where
  kind : RuleKind
  attributes : Attributes := {}
  /-- The rule as written, with its rewrites. -/
  body : Term
  requires : List Term := []
  ensures : List Term := []
  /-- Lookups, as values with the patterns they are bound to. -/
  equations : List (Term × Term) := []
  /-- The left side of the body. -/
  left : Term
  /-- The right side of the body. -/
  right : Term
  /-- What the lookups state together. -/
  lookups : Formula
deriving BEq, Inhabited

namespace Rule

/-- The rule of a body, conditions and lookups. -/
def assemble (kind : RuleKind) (attributes : Attributes) (body : Term)
    (requires ensures : List Term) (equations : List (Term × Term)) : Build Rule := do
  let body ← body.freeze
  let requires ← requires.mapM Term.freeze
  let ensures ← ensures.mapM Term.freeze
  let left ← body.leftSide
  let right ← body.rightSide
  let lookups ← (← (Formula.truth).addEquations equations).simplify
  return { kind, attributes, body, requires, ensures, equations, left, right, lookups }

/-- The label at the top of the left side. -/
def head? (r : Rule) : Option String := r.left.constLabel?

/-- The label that the rule was given. -/
def label? (r : Rule) : Option String := r.attributes.get? "label"

def location? (r : Rule) : Option Location := r.attributes.location

/-- What the rule does to cells, where that can be said cell by cell. -/
def effects? (r : Rule) : Option CellEffects := CellEffects.ofBody? r.body

/-- The pair that the rule is filed under. -/
def pair (settings : IndexSettings) (r : Rule) : IndexPair := settings.pair r.body

/-! ### Terms of a rule -/

/-- Every term of the rule: body, conditions, then both sides of each lookup. -/
def terms (r : Rule) : List Term :=
  r.body :: (r.requires ++ (r.ensures ++ r.equations.flatMap fun e => [e.1, e.2]))

/-- Every occurrence of a variable, in the order of `terms`. -/
def vars (r : Rule) : List Var := r.terms.flatMap Term.vars

section Map
variable {m : Type → Type} [Monad m] [MonadLiftT Build m]

/-- The rule with every term changed. -/
def map (f : Term → m Term) (r : Rule) : m Rule := do
  let body ← f r.body
  let requires ← r.requires.mapM f
  let ensures ← r.ensures.mapM f
  let equations ← r.equations.mapM fun e => return (← f e.1, ← f e.2)
  assemble r.kind r.attributes body requires ensures equations

end Map

/-- Whether the terms of the rule are the nodes that they are in the other. -/
def isSame (r s : Rule) : Bool := Term.allSame r.terms s.terms

/-- The rule with its variables renamed. -/
def rename (names : List (Var × Var)) (r : Rule) : Build Rule :=
  r.map (Term.rename fun v => SortedList.get? v names)

/-! ### Fresh names -/

/-- The variables that the rule brings out, each once: those of the right side and of the
conditions on the result. -/
def outputs (r : Rule) : List Var := ((r.right :: r.ensures).flatMap Term.vars).eraseDups

def isMarked (mark : Char) (v : Var) : Bool := v.name.toList.head? == some mark

/-- Variables marked `!`, for which the rule makes up new constants. -/
def freshConstants (r : Rule) : List Var := r.outputs.filter (isMarked '!')

/-- Variables marked `?`, which the rule leaves open. -/
def freshVariables (r : Rule) : List Var := r.outputs.filter (isMarked '?')

/-! ### Text -/

/-- Conditions after a keyword, joined by the connective. -/
def renderConditions (keyword : String) (conditions : List Term) : String :=
  if conditions.isEmpty then ""
  else " " ++ keyword ++ " " ++ String.intercalate " andBool " (conditions.map Term.render)

def render (r : Rule) : String :=
  let lookup (e : Term × Term) := " #match(" ++ e.2.render ++ ", " ++ e.1.render ++ ")"
  "rule " ++ r.body.render ++ renderConditions "requires" r.requires ++
    String.join (r.equations.map lookup) ++ renderConditions "ensures" r.ensures

/-- The rule after its kind. -/
def renderWithKind (r : Rule) : String := "[" ++ r.kind.text ++ "] " ++ r.render

end Rule

end RuleCompiler
