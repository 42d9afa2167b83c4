import RuleCompiler.SortedList
import RuleCompiler.Term.Identity

/-! # Builders

Sequences and collections are put together part by part. A builder flattens nested collections
of its own kind, keeps unordered parts sorted, and collapses to its only part where that stands
for the whole. Parts stay the nodes they are; only the collection itself, lists that end up among
the unknown parts of a list, and variables made from frames are new. Every collection that a walk
over terms rebuilds goes through these builders. -/

namespace RuleCompiler

/-! ### Sequences -/

/-- A sequence under construction. -/
structure SequenceParts where
  items : List Term := []
  frame : Option Var := none

namespace SequenceParts

/-- The items with the frame, if any, made an ordinary item. -/
def allItems (p : SequenceParts) : Build (List Term) := do
  match p.frame with
  | none => return p.items
  | some v => return p.items ++ [← Term.var v]

/-- Append a term: sequences are spliced, and a `K` variable becomes the frame until something
follows it. -/
def add (p : SequenceParts) (t : Term) : Build SequenceParts := do
  match t.node with
  | .seq [] none => return p
  | .seq items frame => return ⟨(← p.allItems) ++ items, frame⟩
  | .var v =>
    let items ← p.allItems
    return if v.sort = .k then ⟨items, some v⟩ else ⟨items ++ [t], none⟩
  | _ => return ⟨(← p.allItems) ++ [t], none⟩

def addAll (p : SequenceParts) (ts : List Term) : Build SequenceParts := ts.foldlM add p

/-- The sequence; a single item or a lone frame stands for itself. -/
def build : SequenceParts → Build Term
  | ⟨[], some v⟩ => Term.var v
  | ⟨[t], none⟩ => return t
  | ⟨items, frame⟩ => Term.new (.seq items frame)

end SequenceParts

/-- The sequence of `ts`. -/
def Term.sequence (ts : List Term) : Build Term := do (← SequenceParts.addAll {} ts).build

/-- Items followed by a frame, as a sequence. -/
def Term.sequenceFrom (items : List Term) (frame : Option Var) : Build Term := do
  Term.sequence (items ++ (← frame.toList.mapM Term.var))

namespace CollectionOps

/-- The term that stands for the empty collection of a user operator. -/
def unitTerm (ops : CollectionOps) : Term := .constant ops.unit ops.sort

/-- Whether `t` is the unit constant, of whatever sort. -/
def isUnit (ops : CollectionOps) (t : Term) : Bool :=
  match t.node with
  | .app (.const l) [] _ => l == ops.unit
  | _ => false

end CollectionOps

/-! ### Lists -/

/-- A list under construction: known items, parts still unknown, items known after those. -/
structure ListParts where
  ops : CollectionOps
  left : List Term := []
  base : List Term := []
  right : List Term := []

namespace ListParts

def addItem (p : ListParts) (t : Term) : ListParts :=
  if p.base.isEmpty then { p with left := p.left ++ [t] } else { p with right := p.right ++ [t] }

/-- Items between two unknown parts are kept as a list of their own among the parts. -/
def closeRight (p : ListParts) : Build ListParts := do
  if p.right.isEmpty then return p
  let items ← Term.new (.list p.ops p.right [] [])
  return { p with base := p.base ++ [items], right := [] }

def addBase (p : ListParts) (t : Term) : Build ListParts := do
  let p ← p.closeRight
  return { p with base := p.base ++ [t] }

/-- Whether the operand stands for a list not known yet. With an element wrapper every operand
that is not a list does; without one only a variable of the list sort. -/
def isUnresolved (p : ListParts) (t : Term) : Bool :=
  !p.ops.isOperator || (t.isVar && t.sort == p.ops.sort)

/-- Append an operand that is no list: one that is not known yet becomes a part, any other is an
item. -/
def addOperand (p : ListParts) (t : Term) : Build ListParts := do
  if p.isUnresolved t then p.addBase t else return p.addItem t

/-- Append an operand: a list is spliced and the unit vanishes. -/
def concat (p : ListParts) (t : Term) : Build ListParts := do
  match t.node with
  | .list ops left base right =>
    if ops = p.ops then
      let p := left.foldl addItem p
      if base.isEmpty then return p
      let p ← p.closeRight
      return { p with base := p.base ++ base, right := p.right ++ right }
    else p.addOperand t
  | _ => if p.ops.isUnit t then return p else p.addOperand t

def build (p : ListParts) : Build Term :=
  match p.left, p.base, p.right with
  | [], [t], [] => return t
  | [], [], right =>
    if p.ops.isOperator then return p.ops.unitTerm else Term.new (.list p.ops [] [] right)
  | [t], [], right =>
    if p.ops.isOperator then return t else Term.new (.list p.ops [t] [] right)
  | left, base, right => Term.new (.list p.ops left base right)

end ListParts

/-! ### Maps -/

/-- A map under construction; the entries are sorted by their keys. -/
structure MapParts where
  ops : CollectionOps
  entries : List (Term × Term) := []
  base : List Term := []

namespace MapParts

/-- Set the value of a key. A key that is there already stays the node it is. -/
def put (p : MapParts) (key value : Term) : MapParts :=
  { p with entries := SortedList.put Term.cmp key value p.entries }

/-- Merge a map, whose values win over the present ones, or add a part not known yet. -/
def concat (p : MapParts) (t : Term) : MapParts :=
  let unresolved := { p with base := p.base ++ [t] }
  match t.node with
  | .map ops entries base =>
    if ops = p.ops then
      let p := entries.foldl (fun p e => p.put e.1 e.2) p
      { p with base := p.base ++ base }
    else unresolved
  | _ => if p.ops.isUnit t then p else unresolved

def build (p : MapParts) : Build Term :=
  match p.entries, p.base with
  | [], [t] => return t
  | entries, base => Term.new (.map p.ops entries (SortedList.sort Term.cmp base))

end MapParts

/-! ### Sets -/

/-- A set under construction; the elements are sorted. -/
structure SetParts where
  ops : CollectionOps
  elements : List Term := []
  base : List Term := []

namespace SetParts

/-- Add an element, unless an equal one is there. -/
def add (p : SetParts) (t : Term) : SetParts :=
  { p with elements := SortedList.addNew Term.cmp t p.elements }

/-- Merge a set, or add a part not known yet. -/
def concat (p : SetParts) (t : Term) : SetParts :=
  let unresolved := { p with base := p.base ++ [t] }
  match t.node with
  | .set ops elements base =>
    if ops = p.ops then
      let p := elements.foldl add p
      { p with base := p.base ++ base }
    else unresolved
  | _ => if p.ops.isUnit t then p else unresolved

def build (p : SetParts) : Build Term :=
  match p.elements, p.base with
  | [], [t] => return t
  | elements, base => Term.new (.set p.ops elements (SortedList.sort Term.cmp base))

end SetParts

/-! ### Cells -/

/-- A cell collection under construction. -/
structure CellParts where
  cells : List Cell := []
  frames : List Var := []

namespace CellParts

def put (p : CellParts) (label : String) (multiplicity : Multiplicity) (content : Term) :
    CellParts :=
  { p with cells := p.cells ++ [⟨label, multiplicity, content⟩] }

/-- Merge another cell collection or add a frame variable; any other term is a clash. -/
def concat (p : CellParts) (t : Term) : Build CellParts :=
  match t.node with
  | .cells cells frames => return { cells := p.cells ++ cells, frames := p.frames ++ frames }
  | .var v => return { p with frames := p.frames ++ [v] }
  | _ => throw ⟨t⟩

/-- Cells are ordered by label, instances of one label by content. -/
def compareCells (a b : Cell) : Ordering :=
  (compare a.label b.label).then (a.content.cmp b.content)

/-- Frames are ordered by name, then id. -/
def compareFrames (a b : Var) : Ordering := (compare a.name b.name).then (compare a.id b.id)

def build (p : CellParts) : Build Term :=
  match p.cells, p.frames with
  | [], [v] => Term.var v
  | cells, frames =>
    Term.new (.cells (SortedList.sort compareCells cells) (SortedList.sort compareFrames frames))

end CellParts

/-- The collection of `cells` and of whatever `frames` stand for. -/
def Term.cellsFrom (cells : List Cell) (frames : List Term) : Build Term := do
  (← frames.foldlM CellParts.concat { cells := cells }).build

end RuleCompiler
