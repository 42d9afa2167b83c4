import RuleCompiler.Pass.Basic

/-! # Passes that go rule by rule

What these passes make of a rule depends on no other rule. -/

namespace RuleCompiler

/-! ### Operator flattening

The applications of associative operators in rules become lists, the form that subjects have. -/

def Pass.operatorFlattening : Pass where
  name := "normalize_assoc"
  run d := d.eachRule fun r => do
    let flat ← (r.map (Term.flatten d.signature.labels) : Build _)
    return .ofRule r flat

/-! ### Lookups

Conditions that bind a pattern to a value or choose from a collection become lookups. -/

namespace Lookup

/-- The value and the pattern that a condition binds together. -/
def ofCondition? (t : Term) : Build (Option (Term × Term)) := do
  match t.node with
  | .app (.const l) [a, b] _ =>
    if l = "#match" then return some (b, a)
    else if l = "#setChoice" then return some (← Term.app (.const setChoiceLabel) [b], a)
    else if l = "#mapChoice" then return some (← Term.app (.const mapChoiceLabel) [b], a)
    else return none
  | _ => return none

end Lookup

/-- The rule with its lookup conditions made lookups; none where there are none. -/
def Rule.convertLookups? (r : Rule) : Build (Option Rule) := do
  let conditions ← r.requires.mapM fun c => return (c, ← Lookup.ofCondition? c)
  match conditions.filterMap (·.2) with
  | [] => return none
  | found =>
    let requires := (conditions.filter (·.2.isNone)).map (·.1)
    return some (← assemble r.kind r.attributes r.body requires r.ensures (r.equations ++ found))

def Pass.lookups : Pass where
  name := "convert_lookups"
  isRequired := true
  run d := d.eachRule fun r => return .ofOption (← r.convertLookups?)

/-! ### Renaming

Rules that are instantiated inside other rules get variables that no other rule has. Regular
rules get them too, with a prefix to their names, where the options ask for it. -/

/-- Whether a variable's name is marked as fresh; marked names get no prefix. -/
def Var.isMarked (v : Var) : Bool := Rule.isMarked '!' v || Rule.isMarked '?' v

/-- New names for the variables of a rule, don't-care variables left out. -/
def Rule.freshNames (before : String) (r : Rule) : SessionM (List (Var × Var)) :=
  (r.vars.filter (!·.isDontCare)).eraseDups.mapM fun v =>
    return (v, ← Session.rename v (if v.isMarked then "" else before))

/-- The rule with variables of its own. -/
def Rule.renameFresh (before : String) (r : Rule) : SessionM Rule := do
  r.rename (← r.freshNames before)

/-- The prefix that variables of rules of a kind get when they are renamed. -/
def RuleKind.renamed? (freshRules : Bool) : RuleKind → Option String
  | function | anywhere | pattern | patternFolding => some ""
  | regular => if freshRules then some "R_" else none
  | expansion => none

def Pass.freshNaming : Pass where
  name := "rename_fresh"
  run d := do
    let freshRules := (← get).options.freshRules
    d.eachRule fun r => do
      match r.kind.renamed? freshRules with
      | some before => return .changed (← r.renameFresh before)
      | none => return .kept

/-! ### Single variables

A variable of sort `K` that a regular rule mentions once, on its left side, states nothing. It
becomes the don't-care variable, which is never bound. -/

/-- The variables of sort `K` that occur once in a rule, on its left side. -/
def Rule.singleVariables (r : Rule) : List Var :=
  let all := r.vars
  r.left.vars.filter fun v => v.sort == .k && !v.isDontCare && all.count v == 1

/-- The rule with its single variables marked; none where there are none. -/
def Rule.markSingles? (r : Rule) : Build (Option Rule) := do
  let singles := r.singleVariables
  if singles.isEmpty then return none
  let mark ← Term.var (.dontCare .k)
  r.map (Term.substitute fun v => if singles.contains v then some mark else none)

def Pass.singleVariables : Pass where
  name := "mark_single_variables"
  run d := d.eachRule fun r => do
    if r.kind == .regular then return .ofOption (← r.markSingles?) else return .kept

end RuleCompiler
