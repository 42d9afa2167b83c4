import RuleCompiler.Index.Pair
import RuleCompiler.SortedList

/-! # The index table

Rules are filed under the first index of their pair, so a lookup visits one or two drawers. -/

namespace RuleCompiler

structure IndexTable where
  /-- The pair last recorded for each rule id. -/
  pairs : List (Option IndexPair) := []
  /-- Rule ids by the first index of their pair. -/
  drawers : List (Index × List Nat) := []
deriving Inhabited

namespace IndexTable

def pair? (t : IndexTable) (rule : Nat) : Option IndexPair := (t.pairs[rule]?).join

def drawer (t : IndexTable) (i : Index) : List Nat := (SortedList.get? i t.drawers).getD []

/-- `rule` put into the drawer of `i`. -/
def file (i : Index) (rule : Nat) : List (Index × List Nat) → List (Index × List Nat)
  | [] => [(i, [rule])]
  | d :: ds => if d.1 = i then (d.1, d.2 ++ [rule]) :: ds else d :: file i rule ds

/-- `rule` taken out of the drawer of `i`. -/
def unfile (i : Index) (rule : Nat) (drawers : List (Index × List Nat)) : List (Index × List Nat) :=
  drawers.map fun d => if d.1 = i then (d.1, d.2.filter (· != rule)) else d

/-- Record the pair of a rule in place of an earlier one. -/
def insert (t : IndexTable) (rule : Nat) (pair : IndexPair) : IndexTable :=
  let pairs := t.pairs ++ List.replicate (rule + 1 - t.pairs.length) none
  let drawers := match t.pair? rule with
    | some old => unfile old.first rule t.drawers
    | none => t.drawers
  { pairs := pairs.set rule (some pair), drawers := file pair.first rule drawers }

def size (t : IndexTable) : Nat := (t.pairs.filter (·.isSome)).length

/-- The rules whose pair is compatible with that of the subject, ascending. -/
def candidates (t : IndexTable) (subject : IndexPair) : List Nat :=
  let found : List Nat := match subject.first with
    | .top => t.drawers.flatMap (·.2)
    | first => t.drawer first ++ t.drawer .top
  (found.filter fun rule => (t.pair? rule).any (·.compatible subject)).foldr
    (SortedList.addNew compare) []

end IndexTable

end RuleCompiler
