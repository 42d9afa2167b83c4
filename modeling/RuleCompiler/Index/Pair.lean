import RuleCompiler.Term.Walk

/-! # Indices

The index of a term position says what may stand there, as far as the head tells. A term is indexed by
the first two positions of its top sequence. Two terms whose pairs are not compatible have no common
instance. -/

namespace RuleCompiler

namespace Term

/-- The label of a frozen application and the position of its hole. -/
def frozenHole? (t : Term) : Option (String × Nat) :=
  match t.node with
  | .app (.const l) args _ => (args.findIdx? (·.isHole)).map (l, ·)
  | _ => none

end Term

inductive Index where
  /-- An application of a label. -/
  | label (name : String)
  /-- A frozen application, by its label and the position of its hole. -/
  | frozen (label : String) (hole : Nat)
  | token (sort : SortName)
  /-- Anything. -/
  | top
  /-- Nothing. -/
  | bottom
deriving DecidableEq, Inhabited

namespace Index

/-- Whether one position may be described by both. -/
def compatible : Index → Index → Bool
  | top, _ | _, top => true
  | a, b => a == b

def render : Index → String
  | label l => l
  | frozen l hole => s!"{l}[{hole}]"
  | token s => s!"#token:{s.name}"
  | top => "*"
  | bottom => "_|_"

/-- The index of a term, where tokens of the sorts `builtin` are told apart by sort. A rewrite is
indexed by its left side. -/
def ofTerm (builtin : List SortName) : Term → Index :=
  Term.fold fun t below => match t.node, below with
    | .app (.const l) .., _ => label l
    | .app (.freezer t) .., _ =>
      match t.frozenHole? with
      | some (l, hole) => frozen l hole
      | none => top
    | .token s _, _ => if builtin.contains s then token s else top
    | .rewrite .., left :: _ => left
    | _, _ => top

end Index

/-! ### Pairs -/

structure IndexPair where
  first : Index
  second : Index
deriving DecidableEq, Inhabited

/-- What indexing depends on besides the term. -/
structure IndexSettings where
  /-- The sorts whose tokens are told apart by sort. -/
  builtinSorts : List SortName := SortName.builtinData
  /-- The cell whose content is indexed in place of the whole term. -/
  computationCell : Option String := none
deriving Inhabited

namespace IndexPair

def top : IndexPair := ⟨.top, .top⟩
def bottom : IndexPair := ⟨.bottom, .bottom⟩

def compatible (p q : IndexPair) : Bool :=
  p.first.compatible q.first && p.second.compatible q.second

def render (p : IndexPair) : String := s!"({p.first.render}, {p.second.render})"

/-- The pair of a run of positions; past its end stands anything if it is open, nothing if not. -/
def ofPositions (indices : List Index) (isOpen : Bool) : IndexPair :=
  let missing := if isOpen then Index.top else .bottom
  ⟨indices.head?.getD missing, indices.tail.head?.getD missing⟩

/-- Whether a sequence item may stand for any number of items. -/
def isSegment (t : Term) : Bool := t.sort == .k || (t.sort == .bag && t.isVar)

end IndexPair

namespace Term

/-- The content of the only cell labelled `label` in the collection, or in the first cell below
that has one. Of a rewrite the left side counts, unless that is a rewrite itself. -/
def findCell? (label : String) : Term → Option Term :=
  fold fun t below => match t.node, below with
    | .rewrite l _, left :: _ => if l.isRewrite then none else left
    | .cells cs _, below =>
      match cs.filter (·.label == label) with
      | [cell] => some cell.content
      | _ => (cs.zip below).findSome? fun (cell, found) =>
        if cell.label == label then none else found
    | _, _ => none

end Term

namespace IndexSettings
open IndexPair

def index (settings : IndexSettings) : Term → Index := Index.ofTerm settings.builtinSorts

/-- The pair of a term in its own right. -/
def pairOf (settings : IndexSettings) : Term → IndexPair :=
  Term.fold fun t below => match t.node, below with
    | .rewrite .., left :: _ => left
    | .seq items frame, _ =>
      let known := items.takeWhile (!isSegment ·)
      ofPositions (known.map settings.index) (frame.isSome || known.length < items.length)
    | .cells cs frames, _ =>
      if frames.isEmpty then ofPositions (cs.map fun c => .label c.label) false else top
    | _, _ =>
      if isSegment t || t.asVar?.any (·.sort == .kItem) then top else ⟨settings.index t, .bottom⟩

/-- The pair that the term is filed under: that of the computation cell, where there is one. -/
def pair (settings : IndexSettings) (t : Term) : IndexPair :=
  settings.pairOf ((settings.computationCell.bind fun c => t.findCell? c).getD t)

end IndexSettings

end RuleCompiler
