import RuleCompiler.SortedList
import RuleCompiler.Term.Walk

/-! # Cell effects

What a rule over cells does, cell by cell: what it reads, what it writes, and what it reads and
leaves as it is. Only rules that write whole cells, of which there is one instance each, are
described this way. -/

namespace RuleCompiler

structure CellEffects where
  /-- The pattern that each cell read has to match. -/
  reads : List (String × Term) := []
  /-- The new content of each cell written. -/
  writes : List (String × Term) := []
  /-- The cells read and left unchanged. -/
  copies : List String := []
deriving BEq, Inhabited

namespace CellEffects

def write (e : CellEffects) (label : String) (left right : Term) : CellEffects :=
  { e with
    reads := SortedList.put compare label left e.reads
    writes := SortedList.put compare label right e.writes }

def copy (e : CellEffects) (label : String) (content : Term) : CellEffects :=
  { e with
    reads := SortedList.put compare label content e.reads
    copies := SortedList.addNew compare label e.copies }

/-- Add one cell; `inner` adds the cells of its content. -/
def cell (e : CellEffects) (c : Cell) (inner : CellEffects → Option CellEffects) :
    Option CellEffects :=
  if c.multiplicity.isMultiple then none
  else match c.content.node with
    | .rewrite l r => some (e.write c.label l r)
    | _ => if c.content.hasRewrite then inner e else some (e.copy c.label c.content)

/-- Add the cells of a collection. -/
def collect : Term → CellEffects → Option CellEffects :=
  Term.fold fun t below e => match t.node with
    | .cells cs _ => (cs.zip below).foldlM (fun e (c, inner) => e.cell c inner) e
    | _ => none

/-- The effects of a rule body; none unless it is a collection of cells that allows it. -/
def ofBody? (body : Term) : Option CellEffects := collect body {}

end CellEffects

end RuleCompiler
