import RuleCompiler.Pass.Basic

/-! # Rewrite lifting

A rule has to have a rewrite, rewrites may not be nested, and they may stand neither in conditions
nor under a call other than the body itself. In a rule that obeys this, rewrites are lifted: the
content of a cell becomes one rewrite, and a body outside of cells becomes one rewrite at the
top. -/

namespace RuleCompiler

/-- What is wrong with the rewrites of a rule. -/
inductive Misplacement where
  | inCondition
  | noRewrite
  | nested
  | underFunction
deriving DecidableEq, Inhabited

namespace Misplacement

def diagnostic (location : Option Location) : Misplacement → Diagnostic
  | inCondition =>
    (Diagnostic.error .rewriteInCondition "Rewrites are not allowed in side conditions.").at?
      location "rewrite in side condition"
  | noRewrite =>
    (Diagnostic.error .noRewrite "Rules must have at least one rewrite.").at?
      location "rule without rewrite"
  | nested =>
    (Diagnostic.error .nestedRewrite "Rewrites are not allowed to be nested.").at?
      location "nested rewrite"
  | underFunction =>
    (Diagnostic.error .rewriteUnderFunction "Rewrites are not allowed under functions.").at?
      location "rewrite under a function call"

section Position
variable (functions : List String)

/-- Whether a rewrite in the term, not under a call, has another one in it. -/
def nestedWithin : Term → Bool :=
  Term.fold fun t below => match t.node with
    | .rewrite l r => l.hasRewrite || r.hasRewrite
    | _ => !t.constLabel?.any functions.contains && below.contains true

/-- Whether a call in the term has a rewrite under it. -/
def callWithin : Term → Bool :=
  Term.fold fun t below => match t.node with
    | .rewrite .. => false
    | _ => if t.constLabel?.any functions.contains then t.hasRewrite else below.contains true

/-- Whether a body, which may be a call itself, has nested rewrites. -/
def hasNested (body : Term) : Bool :=
  match body.node with
  | .rewrite l r => l.hasRewrite || r.hasRewrite
  | _ => body.children.any (nestedWithin functions)

/-- Whether a body, which may be a call itself, has a rewrite under another call. -/
def hasUnderFunction (body : Term) : Bool :=
  match body.node with
  | .rewrite .. => false
  | _ => body.children.any (callWithin functions)

end Position

/-- What is wrong with a rule, the first that applies. -/
def of? (functions : List String) (r : Rule) : Option Misplacement :=
  if (r.requires ++ r.ensures).any (·.hasRewrite) then some inCondition
  else if !r.body.hasRewrite then some noRewrite
  else if hasNested functions r.body then some nested
  else if hasUnderFunction functions r.body then some underFunction
  else none

end Misplacement

/-- The body with its rewrites lifted. -/
def Term.liftRewrites : Term → Build Term :=
  fold fun t below => match t.node with
    | .rewrite .. => return t
    | .cells cs frames => do
      let lift (c : Cell) (lifted : Build Term) : Build Cell := do
        if c.content.hasRewrite then return { c with content := ← lifted } else return c
      CellParts.build ⟨← (cs.zip below).mapM fun (c, lifted) => lift c lifted, frames⟩
    | _ => do
      let left ← t.leftSide
      rewrite left (← t.rightSide)

/-- Check a rule and lift its rewrites. -/
def liftRule (functions : List String) (r : Rule) : Build RuleOutcome := do
  match Misplacement.of? functions r with
  | some m => return .dropped (m.diagnostic r.location?)
  | none =>
    let body ← r.body.liftRewrites
    if body == r.body then return .kept
    let lifted ← Rule.assemble r.kind r.attributes body r.requires r.ensures r.equations
    return .changed lifted

def Pass.rewriteLifting : Pass where
  name := "bubble_rewrites"
  isRequired := true
  run d := d.eachRule fun r => liftRule d.functions r

end RuleCompiler
