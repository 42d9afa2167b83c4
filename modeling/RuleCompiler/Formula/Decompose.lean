import RuleCompiler.Formula.Basic
import RuleCompiler.Matching

/-! # Decomposing equations

One equation is taken apart into the equations between its parts, a binding, or nothing at all;
or it is found to be impossible, or not decidable yet. -/

namespace RuleCompiler

/-- What one equation comes to. -/
inductive Decomposition where
  /-- It holds and binds nothing. -/
  | holds
  /-- All of these equations together. -/
  | parts (equations : List (Term × Term))
  | binding (v : Var) (value : Term)
  | undecided (left right : Term)
  | fails

namespace Decomposition

def occurs (v : Var) (t : Term) : Bool := t.vars.contains v

/-- `v`, which `node` is an occurrence of, equals `value`. The more general sort is bound to the
other. -/
def ofVar (isCall : Term → Bool) (v : Var) (node value : Term) : Decomposition :=
  let bindTo (v : Var) (node value : Term) : Decomposition :=
    if !value.sort.subsortOf v.sort then
      if isCall value then undecided node value else fails
    else if v.isDontCare then holds
    else if occurs v value then fails
    else binding v value
  match value.asVar? with
  | some w =>
    if !w.sort.subsortOf v.sort && v.sort.subsortOf w.sort then bindTo w value node
    else bindTo v node value
  | none => bindTo v node value

/-- The longest run of positions where neither sequence has a part of sort `K`, and the rests. -/
def alignedItems : List Term → List Term → List (Term × Term) × List Term × List Term
  | a :: as, b :: bs =>
    if a.sort = .k || b.sort = .k then ([], a :: as, b :: bs)
    else
      let (aligned, as, bs) := alignedItems as bs
      ((a, b) :: aligned, as, bs)
  | as, bs => ([], as, bs)

def ofSequences (left right : Term) : Build Decomposition := do
  let (as, aFrame) := Matching.sequenceView left
  let (bs, bFrame) := Matching.sequenceView right
  let (aligned, as, bs) := alignedItems as bs
  if (as ++ bs).any (·.sort == .k) then
    if aligned.isEmpty then return undecided left right
    return parts (aligned ++ [(← Term.sequenceFrom as aFrame, ← Term.sequenceFrom bs bFrame)])
  match as, bs with
  | [], [] =>
    match aFrame, bFrame with
    | none, none => return parts aligned
    | some f, none | none, some f => return parts (aligned ++ [(← Term.var f, .dotK)])
    | some f, some g => return parts (aligned ++ [(← Term.var f, ← Term.var g)])
  | [], bs =>
    match aFrame with
    | some f => return parts (aligned ++ [(← Term.var f, ← Term.sequenceFrom bs bFrame)])
    | none => return fails
  | as, _ =>
    match bFrame with
    | some g => return parts (aligned ++ [(← Term.sequenceFrom as aFrame, ← Term.var g)])
    | none => return fails

/-- The unknown part of a collection, where that is one variable. -/
def onlyVar? : List Term → Option Term
  | [t] => if t.isVar then some t else none
  | _ => none

/-- A list with an unknown part against a known one. -/
def ofListAgainst (a b : ListParts) (aTerm bTerm : Term) : Build Decomposition := do
  match onlyVar? a.base with
  | none => return undecided aTerm bTerm
  | some base =>
    let (l, r, n) := (a.left.length, a.right.length, b.left.length)
    if n < l + r then return fails
    let middle := (b.left.drop l).take (n - r - l)
    return parts (a.left.zip b.left ++ a.right.zip (b.left.drop (n - r)) ++
      [(base, ← Matching.listOf b.ops middle)])

def ofLists (a b : ListParts) (aTerm bTerm : Term) : Build Decomposition :=
  match a.base.isEmpty, b.base.isEmpty with
  | true, true =>
    return if a.left.length = b.left.length then parts (a.left.zip b.left) else fails
  | true, false => ofListAgainst b a bTerm aTerm
  | false, true => ofListAgainst a b aTerm bTerm
  | false, false => return undecided aTerm bTerm

/-- A map under decomposition: labels, entries, unknown parts. -/
structure MapView where
  ops : CollectionOps
  entries : List (Term × Term)
  base : List Term

namespace MapView

def hasGroundKeys (m : MapView) : Bool := m.entries.all (·.1.isGround)

end MapView

/-- The values that both maps have for the keys of the first, if the second has them all. -/
def commonValues (entries others : List (Term × Term)) : Option (List (Term × Term)) :=
  entries.mapM fun e => (SortedList.get? e.1 others).map (e.2, ·)

/-- A map with an unknown part against a known one. -/
def ofMapAgainst (a b : MapView) (aTerm bTerm : Term) : Build Decomposition := do
  match onlyVar? a.base with
  | none => return undecided aTerm bTerm
  | some base =>
    match commonValues a.entries b.entries with
    | none => return fails
    | some common =>
      let others := b.entries.filter fun e => !a.entries.any (·.1 == e.1)
      return parts (common ++ [(base, ← MapParts.build { ops := b.ops, entries := others })])

def ofMaps (a b : MapView) (aTerm bTerm : Term) : Build Decomposition :=
  if !a.hasGroundKeys || !b.hasGroundKeys then return undecided aTerm bTerm
  else match a.base.isEmpty, b.base.isEmpty with
    | true, true =>
      if a.entries.length = b.entries.length then
        return (commonValues a.entries b.entries).elim fails parts
      else return fails
    | true, false => ofMapAgainst b a bTerm aTerm
    | false, true => ofMapAgainst a b aTerm bTerm
    | false, false => return undecided aTerm bTerm

/-- A set with an unknown part against a known one. -/
def ofSetAgainst (ops : CollectionOps) (aElements aBase bElements : List Term)
    (aTerm bTerm : Term) : Build Decomposition := do
  match onlyVar? aBase with
  | none => return undecided aTerm bTerm
  | some base =>
    if aElements.all bElements.contains then
      let others := bElements.filter (!aElements.contains ·)
      return parts [(base, ← SetParts.build { ops, elements := others })]
    else return fails

/-- Known sets are compared element by element before, so they fail here. -/
def ofSets (ops : CollectionOps) (aElements aBase bElements bBase : List Term)
    (aTerm bTerm : Term) : Build Decomposition :=
  if !(aElements ++ bElements).all (·.isGround) then return undecided aTerm bTerm
  else match aBase.isEmpty, bBase.isEmpty with
    | true, true => return fails
    | true, false => ofSetAgainst ops bElements bBase aElements bTerm aTerm
    | false, true => ofSetAgainst ops aElements aBase bElements aTerm bTerm
    | false, false => return undecided aTerm bTerm

/-- The only cell of a label. -/
def cellLabelled? (label : String) (cells : List Cell) : Option Cell :=
  cells.find? (·.label == label)

def hasDistinctLabels (cells : List Cell) : Bool :=
  cells.all fun c => (cells.filter (·.label == c.label)).length == 1

/-- Cells of the same label are equated, and what only one side has goes to the frame of the
other. -/
def ofCells (as bs : List Cell) (aFrames bFrames : List Var) (aTerm bTerm : Term) :
    Build Decomposition := do
  if !hasDistinctLabels as || !hasDistinctLabels bs || 1 < aFrames.length || 1 < bFrames.length then
    return undecided aTerm bTerm
  let common := as.filterMap fun c =>
    (cellLabelled? c.label bs).map fun d => (c.content, d.content)
  let onlyA := as.filter fun c => (cellLabelled? c.label bs).isNone
  let onlyB := bs.filter fun c => (cellLabelled? c.label as).isNone
  match aFrames.head?, bFrames.head? with
  | none, none => return if onlyA.isEmpty && onlyB.isEmpty then parts common else fails
  | some f, none =>
    if !onlyA.isEmpty then return fails
    return parts (common ++ [(← Term.var f, ← CellParts.build ⟨onlyB, []⟩)])
  | none, some g =>
    if !onlyB.isEmpty then return fails
    return parts (common ++ [(← CellParts.build ⟨onlyA, []⟩, ← Term.var g)])
  | some f, some g =>
    if onlyA.isEmpty then
      return parts (common ++ [(← Term.var f, ← CellParts.build ⟨onlyB, [g]⟩)])
    else if onlyB.isEmpty then
      return parts (common ++ [(← CellParts.build ⟨onlyA, [f]⟩, ← Term.var g)])
    else return undecided aTerm bTerm

def isSequence (t : Term) : Bool :=
  match t.node with
  | .seq .. => true
  | _ => false

/-- Two terms that are no rewrites, variables, sequences or calls. -/
def ofNodes (l r : Term) : Build Decomposition :=
  match l.node, r.node with
  | .app (.const a) as _, .app (.const b) bs _ =>
    return if as.length = bs.length && a = b then parts (as.zip bs) else fails
  | .app (.freezer a) as _, .app (.freezer b) bs _ =>
    return if as.length = bs.length then parts ((a, b) :: as.zip bs) else fails
  | .disjunction _, _ | .rightSides _, _ | _, .disjunction _ | _, .rightSides _ =>
    return undecided l r
  | .list ops left base right, .list ops' left' base' right' =>
    if ops = ops' then
      ofLists { ops, left, base, right }
        { ops := ops', left := left', base := base', right := right' } l r
    else return fails
  | .list ops left base right, _ =>
    match Matching.operandsOf? ops r with
    | some b => ofLists { ops, left, base, right } b l r
    | none => return fails
  | _, .list ops left base right =>
    match Matching.operandsOf? ops l with
    | some a => ofLists a { ops, left, base, right } l r
    | none => return fails
  | .map ops entries base, .map ops' entries' base' =>
    if ops = ops' then ofMaps ⟨ops, entries, base⟩ ⟨ops', entries', base'⟩ l r
    else return fails
  | .set ops elements base, .set ops' elements' base' =>
    if ops = ops' then ofSets ops elements base elements' base' l r else return fails
  | .cells as fs, .cells bs gs => ofCells as bs fs gs l r
  | _, _ => return fails

/-- What the equation of two different terms comes to. -/
def of (isCall : Term → Bool) (l r : Term) : Build Decomposition :=
  match l.node, r.node with
  | .rewrite a _, _ => return parts [(a, r)]
  | _, .rewrite b _ => return parts [(l, b)]
  | _, _ =>
    let takes (t other : Term) : Option Var :=
      t.asVar?.filter fun v => v.sort == .k || !isSequence other
    match takes l r, takes r l with
    | some v, _ => return ofVar isCall v l r
    | none, some v => return ofVar isCall v r l
    | none, none =>
      if isSequence l || isSequence r then ofSequences l r
      else if isCall l || isCall r then return undecided l r
      else ofNodes l r

end Decomposition

end RuleCompiler
