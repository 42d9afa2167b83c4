import RuleCompiler.RuleSet
import RuleCompiler.Sort

/-! # Terms

The one tree type that rules, subjects and merged rules are written in. A term is a node with a
mark that says which node it is: terms share nodes, and a shared node is the same one wherever it
is reached. What a node is made of is a `Node` over its children.

Collections are kept in the normal form that the builders of `RuleCompiler.Term.Builder` produce:
map entries, set elements and cells stand in a fixed order. -/

namespace RuleCompiler

/-- A sorted variable. Variables of a source text have id 0, renamed ones other ids. -/
structure Var where
  name : String
  sort : SortName
  id : Nat := 0
deriving DecidableEq, Inhabited

namespace Var

/-- The name of the variables that match without binding anything. -/
def dontCareName : String := "THE_VARIABLE"

def dontCare (s : SortName) : Var := { name := dontCareName, sort := s }

def isDontCare (v : Var) : Bool := v.name == dontCareName

def withId (v : Var) (id : Nat) : Var := { v with id }

def render (v : Var) : String := if v.id = 0 then v.name else s!"{v.name}_{v.id}"

/-- The variable followed by its sort. -/
def renderSorted (v : Var) : String := s!"{v.render}:{v.sort.name}"

/-- The order in which bindings are listed: name, then id, then sort. -/
def compareKeys (v w : Var) : Ordering :=
  (compare v.name w.name).then <| (compare v.id w.id).then <| compare v.sort.name w.sort.name

end Var

/-- How many instances of a cell a configuration may hold. -/
inductive Multiplicity where
  | one
  | optional
  | any
  | atLeastOne
deriving DecidableEq, Inhabited

namespace Multiplicity

def ofText? : String → Option Multiplicity
  | "1" => some one
  | "?" => some optional
  | "*" => some any
  | "+" => some atLeastOne
  | _ => none

def text : Multiplicity → String
  | one => "1"
  | optional => "?"
  | any => "*"
  | atLeastOne => "+"

/-- The multiplicity spelled out as a word. -/
def word : Multiplicity → String
  | one => "One"
  | optional => "Optional"
  | any => "Any"
  | atLeastOne => "AtLeastOne"

/-- Whether several instances may stand side by side. -/
def isMultiple : Multiplicity → Bool
  | any | atLeastOne => true
  | _ => false

@[simp] theorem ofText?_text (m : Multiplicity) : ofText? m.text = some m := by cases m <;> rfl

end Multiplicity

/-- The labels that a collection is built from. -/
structure CollectionOps where
  sort : SortName
  concat : String
  unit : String
  /-- The wrapper of a single element; none when the operands are the elements themselves. -/
  element : Option String
deriving DecidableEq, Inhabited

namespace CollectionOps

def list : CollectionOps := ⟨.list, "_List_", ".List", some "ListItem"⟩
def map : CollectionOps := ⟨.map, "_Map_", ".Map", some "_|->_"⟩
def set : CollectionOps := ⟨.set, "_Set_", ".Set", some "SetItem"⟩

/-- Lists of a user operator hold the operands themselves. -/
def isOperator (ops : CollectionOps) : Bool := ops.element.isNone

end CollectionOps

/-- The label of an application: a name, or an application frozen around its hole. -/
inductive LabelOf (α : Type) where
  | const (name : String)
  | freezer (frozen : α)
deriving BEq, Inhabited

/-- A cell: its label, how often it may occur, and its content. -/
structure CellOf (α : Type) where
  label : String
  multiplicity : Multiplicity
  content : α
deriving BEq, Inhabited

/-- One node of a term, over its children. -/
inductive Node (α : Type) where
  | app (label : LabelOf α) (args : List α) (sort : SortName)
  | token (sort : SortName) (value : String)
  /-- Items in order, and the variable that stands for the rest. -/
  | seq (items : List α) (frame : Option Var)
  /-- Known items on the left, parts still unknown, known items on the right. -/
  | list (ops : CollectionOps) (left base right : List α)
  | map (ops : CollectionOps) (entries : List (α × α)) (base : List α)
  | set (ops : CollectionOps) (elements base : List α)
  | cells (cells : List (CellOf α)) (frames : List Var)
  | var (v : Var)
  /-- The open place of a frozen application. -/
  | hole
  /-- A label used as a value. -/
  | labelValue (label : String)
  | rewrite (left right : α)
  /-- Alternatives at one position, each with the rules that share it. -/
  | disjunction (branches : List (α × RuleSet))
  /-- Right-hand sides by rule id; none where the rule leaves the position as it is. -/
  | rightSides (byRule : List (Option α))
deriving Inhabited

namespace Node
variable {α : Type}

/-- The children from left to right: a frozen label before the arguments, keys before their
values. -/
def children : Node α → List α
  | app (.const _) args _ => args
  | app (.freezer t) args _ => t :: args
  | token .. | var _ | hole | labelValue _ => []
  | seq items _ => items
  | list _ left base right => left ++ (base ++ right)
  | map _ entries base => entries.flatMap (fun e => [e.1, e.2]) ++ base
  | set _ elements base => elements ++ base
  | cells cs _ => cs.map (·.content)
  | rewrite l r => [l, r]
  | disjunction branches => branches.map (·.1)
  | rightSides byRule => byRule.filterMap id

/-- The variables that stand for the rest of a sequence or of a group of cells. They come after
the children and are no nodes of their own. -/
def frames : Node α → List Var
  | seq _ frame => frame.toList
  | cells _ frames => frames
  | _ => []

/-- Nodes with one canonical instance: tokens, constants, label values, the hole and the empty
sequence. -/
def isCanonical : Node α → Bool
  | token .. | app (.const _) [] _ | labelValue _ | hole | seq [] none => true
  | _ => false

def isVar : Node α → Bool
  | var _ => true
  | _ => false

/-- The label of an application with a constant label. -/
def constLabel? : Node α → Option String
  | app (.const l) _ _ => some l
  | _ => none

end Node

/-- Which node a term is. -/
structure Mark where
  /-- Different nodes have different numbers; canonical ones all have 0. -/
  id : Nat := 0
  /-- Whether the node may be changed in place as long as it has a single owner. -/
  isEditable : Bool := false
deriving DecidableEq, Inhabited

structure Term where
  mark : Mark
  node : Node Term
deriving Inhabited

abbrev Label := LabelOf Term
abbrev Cell := CellOf Term

namespace Term

/-! ### Canonical terms -/

/-- A term without an identity of its own. -/
abbrev canonical (n : Node Term) : Term := ⟨{}, n⟩

def token (s : SortName) (value : String) : Term := canonical (.token s value)

def bool (b : Bool) : Term := token .bool (if b then "true" else "false")

def int (n : Int) : Term := token .int (toString n)

def string (s : String) : Term := token .string s

def hole : Term := canonical .hole

def labelValue (label : String) : Term := canonical (.labelValue label)

/-- An application without arguments. -/
def constant (label : String) (s : SortName := .kItem) : Term :=
  canonical (.app (.const label) [] s)

/-- The empty sequence. -/
def dotK : Term := canonical (.seq [] none)

/-! ### Parts -/

def children (t : Term) : List Term := t.node.children

def frames (t : Term) : List Var := t.node.frames

def isCanonical (t : Term) : Bool := t.node.isCanonical

def isEditable (t : Term) : Bool := t.mark.isEditable

def isVar (t : Term) : Bool := t.node.isVar

def asVar? (t : Term) : Option Var :=
  match t.node with
  | .var v => some v
  | _ => none

/-- The label of an application with a constant label. -/
def constLabel? (t : Term) : Option String := t.node.constLabel?

def isHole (t : Term) : Bool :=
  match t.node with
  | .hole => true
  | _ => false

def isDotK (t : Term) : Bool :=
  match t.node with
  | .seq [] none => true
  | _ => false

/-! ### Folding

`fold f t` gives every node to `f` together with the values of its children, in the order of
`children` (`fold_eq`). Every walk over terms is an instance of it. -/

section Fold
variable {α : Type} (f : Term → List α → α)

mutual
def fold : Term → α
  | t@⟨_, node⟩ => f t (foldNode node)

def foldNode : Node Term → List α
  | .app (.const _) args _ => foldAll args
  | .app (.freezer frozen) args _ => fold frozen :: foldAll args
  | .seq items _ => foldAll items
  | .list _ left base right => foldAll left ++ (foldAll base ++ foldAll right)
  | .map _ entries base => foldEntries entries ++ foldAll base
  | .set _ elements base => foldAll elements ++ foldAll base
  | .cells cs _ => foldCells cs
  | .rewrite l r => [fold l, fold r]
  | .disjunction branches => foldBranches branches
  | .rightSides byRule => foldPresent byRule
  | .token .. | .var _ | .hole | .labelValue _ => []

def foldAll : List Term → List α
  | [] => []
  | t :: ts => fold t :: foldAll ts

def foldEntries : List (Term × Term) → List α
  | [] => []
  | (k, v) :: es => fold k :: fold v :: foldEntries es

def foldCells : List (CellOf Term) → List α
  | [] => []
  | ⟨_, _, t⟩ :: cs => fold t :: foldCells cs

def foldBranches : List (Term × RuleSet) → List α
  | [] => []
  | (t, _) :: bs => fold t :: foldBranches bs

def foldPresent : List (Option Term) → List α
  | [] => []
  | none :: ts => foldPresent ts
  | some t :: ts => fold t :: foldPresent ts
end

theorem foldAll_eq (ts : List Term) : foldAll f ts = ts.map (fold f) := by
  induction ts with
  | nil => simp [foldAll]
  | cons t ts ih => simp [foldAll, ih]

theorem foldEntries_eq (es : List (Term × Term)) :
    foldEntries f es = (es.flatMap fun e => [e.1, e.2]).map (fold f) := by
  induction es with
  | nil => simp [foldEntries]
  | cons e es ih => obtain ⟨k, v⟩ := e; simp [foldEntries, ih]

theorem foldCells_eq (cs : List Cell) : foldCells f cs = (cs.map (·.content)).map (fold f) := by
  induction cs with
  | nil => simp [foldCells]
  | cons c cs ih => obtain ⟨_, _, t⟩ := c; simp [foldCells, ih]

theorem foldBranches_eq (bs : List (Term × RuleSet)) :
    foldBranches f bs = (bs.map (·.1)).map (fold f) := by
  induction bs with
  | nil => simp [foldBranches]
  | cons b bs ih => obtain ⟨t, _⟩ := b; simp [foldBranches, ih]

theorem foldPresent_eq (ts : List (Option Term)) :
    foldPresent f ts = (ts.filterMap id).map (fold f) := by
  induction ts with
  | nil => simp [foldPresent]
  | cons t ts ih => cases t <;> simp [foldPresent, ih]

theorem foldNode_eq (n : Node Term) : foldNode f n = n.children.map (fold f) := by
  cases n with
  | app l args s => cases l <;> simp [foldNode, Node.children, foldAll_eq]
  | _ => simp [foldNode, Node.children, foldAll_eq, foldEntries_eq, foldCells_eq,
      foldBranches_eq, foldPresent_eq]

/-- A fold meets a node with the folds of its children. -/
theorem fold_eq (t : Term) : fold f t = f t (t.children.map (fold f)) := by
  obtain ⟨_, n⟩ := t
  rw [fold, foldNode_eq, children]

end Fold

def sort : Term → SortName
  | ⟨_, .app _ _ s⟩ | ⟨_, .token s _⟩ => s
  | ⟨_, .list ops ..⟩ | ⟨_, .map ops ..⟩ | ⟨_, .set ops ..⟩ => ops.sort
  | ⟨_, .cells ..⟩ => .bag
  | ⟨_, .var v⟩ => v.sort
  | ⟨_, .labelValue _⟩ => .kItem
  | ⟨_, .rewrite left _⟩ => left.sort
  | ⟨_, .seq ..⟩ | ⟨_, .hole⟩ | ⟨_, .disjunction _⟩ | ⟨_, .rightSides _⟩ => .k

end Term

end RuleCompiler
