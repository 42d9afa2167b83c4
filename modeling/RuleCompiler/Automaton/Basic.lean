import RuleCompiler.Rule.Basic
import RuleCompiler.Term.Walk

/-! # Merging rules

Several rule bodies become one pattern. Where they agree the pattern is shared; where all of them
have a variable of one sort, one variable stands for all; where their shapes differ, a
disjunction keeps each with the rules it belongs to. At a rewrite the left sides are merged and
every rule keeps its own right side. -/

namespace RuleCompiler.Merge

/-- A term with the rule it comes from. -/
abbrev Item := Term × Nat

/-- Variables, each with the one that stands for it. -/
abbrev Aliases := List (Var × Var)

abbrev Merging := StateT Aliases Build

/-- One variable for several of one sort, none of them shared before. -/
def share (vars : List Var) : Merging (Option Var) := do
  let aliases ← get
  match vars with
  | [] => return none
  | first :: _ =>
    let fits (v : Var) := !v.isDontCare && v.sort == first.sort && !aliases.any (·.1 == v)
    if vars.all fits then
      set (aliases ++ vars.map (·, first))
      return some first
    else return none

/-- One variable for a column of terms. -/
def shareVariables (items : List Item) : Merging (Option Term) := do
  match items.mapM fun (t, _) => t.asVar? with
  | some vars => (← share vars).mapM fun v => (Term.var v : Build Term)
  | none => return none

/-- The frame at one position. -/
def mergeFrame (column : List Var) : Merging (Option Var) :=
  match column with
  | [] => return none
  | v :: vs => if vs.all (· == v) then return some v else share column

/-- Frames position by position; columns shared before one that cannot be stay shared. -/
def mergeColumns : List (List Var) → Merging (Option (List Var))
  | [] => return some []
  | column :: columns => do
    match ← mergeFrame column with
    | none => return none
    | some v => return (← mergeColumns columns).map (v :: ·)

/-- The frames of several terms, if they have the same number of frames. -/
def mergeFrames (frames : List (List Var)) : Merging (Option (List Var)) :=
  match frames with
  | [] => return none
  | first :: others =>
    if others.any fun f => f.length != first.length then return none
    else mergeColumns ((List.range first.length).map fun i => frames.filterMap (·[i]?))

/-- Alternatives at one position, equal ones together. -/
def alternatives (items : List Item) : Build Term :=
  let add (branches : List (Term × RuleSet)) (item : Item) :=
    if branches.any (·.1 == item.1) then
      branches.map fun b => if b.1 == item.1 then (b.1, b.2.insert item.2) else b
    else branches ++ [(item.1, .singleton item.2)]
  Term.new (.disjunction (items.foldl add []))

/-- The items at one position of several lists of parts. -/
def column (parts : List (List Term × Nat)) (i : Nat) : List Item :=
  parts.filterMap fun (ts, id) => ts[i]?.map (·, id)

/-- Parts merged position by position. -/
def mergeParts (go : List Item → Merging Term) (parts : List (List Term × Nat)) (width : Nat) :
    Merging (List Term) :=
  (List.range width).mapM fun i => go (column parts i)

/-- Applications that differ in their arguments only. -/
def applications? (label : Label) (arity : Nat) (s : SortName) (items : List Item) :
    Option (List (List Term × Nat)) :=
  items.mapM fun (t, id) => match t.node with
    | .app l args s' =>
      if l == label && s' = s && args.length = arity then some (args, id) else none
    | _ => none

/-- Sequences of one length, all with a frame or none. -/
def sequences? (length : Nat) (hasFrame : Bool) (items : List Item) :
    Option (List (List Term × Nat) × List (List Var)) :=
  List.unzip <$> items.mapM fun (t, id) => match t.node with
    | .seq ts frame =>
      if ts.length = length && frame.isSome == hasFrame then some ((ts, id), frame.toList) else none
    | _ => none

/-- Cell collections with the same cells, none of which may have several instances. -/
def cellGroups? (shape : List (String × Multiplicity)) (items : List Item) :
    Option (List (List Term × Nat) × List (List Var)) :=
  if shape.any (·.2.isMultiple) then none
  else List.unzip <$> items.mapM fun (t, id) => match t.node with
    | .cells cs frames =>
      if cs.map (fun c => (c.label, c.multiplicity)) = shape then
        some ((cs.map (·.content), id), frames)
      else none
    | _ => none

/-- Merge terms of one shape, if the first one's shape is that of all. -/
def mergeShape (go : List Item → Merging Term) (first : Term) (items : List Item) :
    Merging (Option Term) := do
  match first.node with
  | .app label args s =>
    match applications? label args.length s items with
    | some parts => return some (← Term.app label (← mergeParts go parts args.length) s)
    | none => return none
  | .seq ts frame =>
    match sequences? ts.length frame.isSome items with
    | some (parts, frames) =>
      match ← mergeFrames frames with
      | some vars =>
        let merged ← mergeParts go parts ts.length
        let frames ← (vars.mapM Term.var : Build _)
        return some (← Term.sequence (merged ++ frames))
      | none => return none
    | none => return none
  | .cells cs _ =>
    match cellGroups? (cs.map fun c => (c.label, c.multiplicity)) items with
    | some (parts, frames) =>
      match ← mergeFrames frames with
      | some vars =>
        let contents ← mergeParts go parts cs.length
        let cells := cs.zipWith (fun c content => { c with content }) contents
        return some (← CellParts.build ⟨cells, vars⟩)
      | none => return none
    | none => return none
  | _ => return none

/-- The right sides of the items with a rewrite, by rule id. -/
def rightSides (width : Nat) (items : List Item) : Build (List (Option Term)) :=
  items.foldlM (fun byRule (t, id) => do
    match t.node with
    | .rewrite _ r => return byRule.set id (some r)
    | _ => if t.hasRewrite then return byRule.set id (some (← t.rightSide)) else return byRule)
    (List.replicate width none)

/-- The left side of an item; below a rewrite there is only one more level to take away. -/
def leftOf (item : Item) : Build Item :=
  match item.1.node with
  | .rewrite l _ => return (l, item.2)
  | _ => return (← item.1.leftSide, item.2)

/-- One position. `width` is the number of rule ids. -/
def position (width : Nat) (go : List Item → Merging Term) (items : List Item) : Merging Term := do
  if items.any (·.1.isRewrite) then
    let lefts ← items.mapM fun item => (leftOf item : Build Item)
    let byRule ← (rightSides width items : Build _)
    Term.rewrite (← go lefts) (← Term.new (.rightSides byRule))
  else match items with
    | [] => return .dotK
    | (first, _) :: others =>
      if !first.hasRewrite && others.all (·.1 == first) then return first
      else match ← shareVariables items with
        | some v => return v
        | none =>
          match ← mergeShape go first items with
          | some t => return t
          | none => alternatives items

/-- Merging of terms up to a size. -/
def upTo (width : Nat) : Nat → List Item → Merging Term
  | 0 => fun items => alternatives items
  | n + 1 => position width (upTo width n)

end RuleCompiler.Merge

namespace RuleCompiler

/-- One pattern for the bodies of several rules, and the variables that were identified. Every
step goes to parts of the bodies or takes a rewrite away, so their sizes bound the depth. -/
def mergeBodies (width : Nat) (items : List Merge.Item) : Build (Term × Merge.Aliases) :=
  (Merge.upTo width ((items.map (·.1.size)).foldr (· + ·) 0 + 1) items).run []

/-! ## The rule automaton

The regular rules merged into one pattern, so that one match finds all of them. Since the rules
share one substitution then, the automaton keeps a copy of each with its variables renamed
apart. -/

structure Automaton where
  /-- The merged rules, rewrites and disjunctions included. -/
  pattern : Term
  rules : RuleSet
  /-- The renamed rules by id. -/
  members : List (Nat × Rule)
deriving Inhabited

namespace Automaton

/-- The first variable id of renamed rules. -/
def firstId : Nat := 1 <<< 30

/-- The variables of a rule, don't-care variables left out, with ids from `next` on. -/
def apart (next : Nat) (r : Rule) : List (Var × Var) :=
  (r.vars.filter (!·.isDontCare)).eraseDups.mapIdx fun i v => (v, v.withId (next + i))

/-- Rules with no variable in common. -/
def renameApart : Nat → List (Nat × Rule) → Build (List (Nat × Rule))
  | _, [] => return []
  | next, (id, r) :: rs => do
    let names := apart next r
    return (id, ← r.rename names) :: (← renameApart (next + names.length) rs)

/-- The regular rules with their ids. -/
def regularRules (rules : List Rule) : List (Nat × Rule) :=
  (rules.mapIdx fun id r => (id, r)).filter (·.2.kind == .regular)

/-- The automaton of the regular rules; none where there are none. -/
def ofRules? (rules : List Rule) : Build (Option Automaton) := do
  let renamed ← renameApart firstId (regularRules rules)
  renamed.getLast?.mapM fun (last, _) => do
    let (pattern, aliases) ← mergeBodies (last + 1) (renamed.map fun (id, r) => (r.body, id))
    return {
      pattern := ← pattern.rename fun v => SortedList.get? v aliases
      rules := .ofList (renamed.map (·.1))
      members := ← renamed.mapM fun (id, r) => return (id, ← r.rename aliases) }

def member? (a : Automaton) (rule : Nat) : Option Rule := (a.members.find? (·.1 == rule)).map (·.2)

/-- The positions where the rules part. -/
def disjunctionCount (a : Automaton) : Nat := (a.pattern.subterms.filter (·.isDisjunction)).length

end Automaton

end RuleCompiler
