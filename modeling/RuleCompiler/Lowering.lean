import RuleCompiler.Rule.Basic
import RuleCompiler.Session
import RuleCompiler.Signature
import RuleCompiler.Term.Render

/-! # Lowering

Source terms become terms by way of a signature: some labels have a meaning of their own,
configured cells and groups of cells become cell collections, and labels hooked to a collection
become lists, maps and sets. A rewrite between groups of cells is lifted to the cell around them,
so that a cell collection only ever holds cells and variables. -/

namespace RuleCompiler

/-- Why a source term stands for no term. Locations are those of the term to blame. -/
inductive LoweringError where
  /-- A rewrite between groups of cells has another one in it. -/
  | nestedRewrite (location : Option Location)
  /-- Neither a cell nor a variable stands among cells. -/
  | strayAmongCells (stray : Term) (location : Option Location)
  /-- A label of maps has the wrong number of arguments. -/
  | malformedMap (role : CollectionRole) (arity : Nat) (location : Option Location)
deriving Inhabited

def LoweringError.diagnostic : LoweringError → Diagnostic
  | nestedRewrite l =>
    (Diagnostic.error .nestedRewrite "Rewrites are not allowed to be nested.").at? l
      "nested rewrite"
  | strayAmongCells t l =>
    (Diagnostic.error .internal ("`" ++ t.render ++ "` cannot appear among cells")).at? l
      "expected a cell or a Bag variable"
  | malformedMap role arity l =>
    (Diagnostic.error .internal s!"map {role.word} applied to {arity} arguments").at? l
      "malformed map term"

/-- Lowering hands out variable ids and stops at the first error. -/
abbrev Lower := ExceptT LoweringError SessionM

namespace Lower

/-- How a source term is lowered. -/
abbrev Rec := SourceTerm → Lower Term

/-- Groups of cells side by side. -/
def cellsLabel : String := "#cells"

/-- No cells. -/
def noCellsLabel : String := ".Bag"

/-- Whether the term stands for cells: a cell, a group of them, a variable for one, or a rewrite
with such a side. -/
def isBagItem (sig : Signature) : SourceTerm → Bool :=
  SourceTerm.fold fun t below => match t with
    | .apply l .. => sig.cells.isCell l || l == cellsLabel || l == noCellsLabel
    | .var _ a => a.sort? == some .bag
    | .rewrite .. => below.contains true
    | _ => false

def isEmptyBag : SourceTerm → Bool
  | .apply l [] _ => l == noCellsLabel
  | _ => false

def sequence (go : Rec) (items : List SourceTerm) : Lower Term := do
  Term.sequence (← items.mapM go)

/-- Add a lowered term to a group of cells. -/
def addToBag (go : Rec) (p : CellParts) (t : SourceTerm) : Lower CellParts := do
  if isEmptyBag t then return p
  let u ← go t
  match u.node with
  | .cells .. | .var _ => p.concat u
  | _ => throw (.strayAmongCells u t.location?)

/-- A group of cells. -/
def bag (go : Rec) (items : List SourceTerm) : Lower Term := do
  (← items.foldlM (addToBag go) {}).build

/-- Whether a rewrite has another one in it. -/
def isNestedRewrite : SourceTerm → Bool
  | .rewrite l r _ => l.containsRewrite || r.containsRewrite
  | _ => false

/-- The content of a cell: a group of cells, a rewrite between two such groups, or a sequence. -/
def cellContent (sig : Signature) (go : Rec) (items : List SourceTerm) : Lower Term := do
  if !items.any (isBagItem sig) then sequence go items
  else
    let rewrites := items.filter fun t => t.isRewrite && isBagItem sig t
    if rewrites.isEmpty then bag go items
    else match rewrites.find? isNestedRewrite with
      | some t => throw (.nestedRewrite t.location?)
      | none =>
        let left ← bag go (items.map (·.project .left))
        let right ← bag go (items.map (·.project .right))
        Term.rewrite left right

/-- A list from the arguments of a label with the given role. -/
def listOf (role : CollectionRole) (args : List Term) : Build Term := do
  let add (p : ListParts) (t : Term) : Build ListParts := match role with
    | .concat => p.concat t
    | .element => return p.addItem t
    | .unit => return p
  (← args.foldlM add { ops := .list }).build

/-- A set from the arguments of a label with the given role. -/
def setOf (role : CollectionRole) (args : List Term) : Build Term :=
  SetParts.build <| args.foldl (fun p t => match role with
    | .concat => p.concat t
    | .element => p.add t
    | .unit => p) { ops := .set }

/-- A map from the arguments of a label with the given role; an element has a key and a value,
and the empty map has no arguments. -/
def mapOf? (role : CollectionRole) (args : List Term) : Option MapParts :=
  let empty : MapParts := { ops := .map }
  match role, args with
  | .concat, parts => some (parts.foldl MapParts.concat empty)
  | .element, [key, value] => some (empty.put key value)
  | .unit, [] => some empty
  | _, _ => none

/-- The collection that a hooked label builds from its arguments. -/
def collection (kind : CollectionKind) (role : CollectionRole) (args : List Term)
    (a : Attributes) : Lower Term :=
  match kind with
  | .list => listOf role args
  | .set => setOf role args
  | .map =>
    match mapOf? role args with
    | some parts => parts.build
    | none => throw (.malformedMap role args.length a.location)

/-- An application whose label has no meaning of its own. -/
def application (sig : Signature) (go : Rec) (label : String) (args : List SourceTerm)
    (a : Attributes) : Lower Term := do
  if sig.cells.isCell label then
    let content ← cellContent sig go args
    (({} : CellParts).put label (sig.cells.multiplicity label) content).build
  else match sig.labels.collection? label with
    | some (kind, role) => collection kind role (← args.mapM go) a
    | none => Term.app (.const label) (← args.mapM go) (sig.sortOf label a)

/-- One node of a source term. Anonymous variables are all distinct. -/
def node (sig : Signature) (go : Rec) : SourceTerm → Lower Term
  | .apply "#hole" [] _ => return .hole
  | .apply "#EmptyK" [] _ => return .dotK
  | .apply "#KSequence" items _ => sequence go items
  | .apply "#freezer" (frozen :: args) _ => do
    let frozen ← go frozen
    Term.app (.freezer frozen) (← args.mapM go)
  | .apply "#cells" items _ => cellContent sig go items
  | .apply l args a => application sig go l args a
  | .token s v _ => return .token s v
  | .sequence items _ => sequence go items
  | .var name a => do
    let id ← if name = "_" then Session.freshId else pure 0
    Term.var { name, sort := a.sort?.getD .k, id }
  | .rewrite l r _ => do
    let left ← go l
    Term.rewrite left (← go r)
  | .label l _ => return .labelValue l

/-- Lowering of source terms up to a size. -/
def upTo (sig : Signature) : Nat → Rec
  | 0 => fun _ => return .hole
  | n + 1 => node sig (upTo sig n)

end Lower

/-- The term that a source term stands for. Lowering goes to parts of the term or to a side of
one, so the size bounds the recursion. -/
def Signature.lower (sig : Signature) (t : SourceTerm) : Lower Term := Lower.upTo sig t.size t

namespace Signature

/-- The conjuncts of an optional condition. -/
def lowerCondition (sig : Signature) : Option SourceTerm → Lower (List Term)
  | none => return []
  | some t => return (← sig.lower t).conjuncts

/-- A source rule lowered and classified. It stands where its body stands unless it says
otherwise. -/
def lowerRule (sig : Signature) (r : SourceRule) : Lower Rule := do
  let body ← sig.lower r.body
  let requires ← sig.lowerCondition r.requires?
  let ensures ← sig.lowerCondition r.ensures?
  let attributes := { r.attributes with location := r.attributes.location <|> r.body.location? }
  let kind := RuleKind.classify attributes (← (body.leftSide : Build _)).constLabel? sig.labels
  Rule.assemble kind attributes body requires ensures []

end Signature

end RuleCompiler
