/-! # Sorted lists

Insertion into lists that are kept in the order of a comparison: with repetitions (`insert`,
`sort`), without (`addNew`), and as finite maps (`put`). An element or key that is already there
stays, and an equal one that comes later is left out. -/

namespace RuleCompiler.SortedList

variable {α β : Type} (cmp : α → α → Ordering)

/-- `a` put in front of the first element that is not below it. -/
def insert (a : α) : List α → List α
  | [] => [a]
  | b :: bs => if cmp b a = .lt then b :: insert a bs else a :: b :: bs

/-- The list in order; equal elements stay in the order they came in. -/
def sort (l : List α) : List α := l.foldr (insert cmp) []

/-- `a` put in its place unless an equal element is already there. -/
def addNew (a : α) : List α → List α
  | [] => [a]
  | b :: bs =>
    match cmp a b with
    | .lt => a :: b :: bs
    | .eq => b :: bs
    | .gt => b :: addNew a bs

/-- The value of `key` set to `value`. -/
def put (key : α) (value : β) : List (α × β) → List (α × β)
  | [] => [(key, value)]
  | e :: es =>
    match cmp key e.1 with
    | .lt => (key, value) :: e :: es
    | .eq => (e.1, value) :: es
    | .gt => e :: put key value es

/-- The value of `key`. -/
def get? [BEq α] (key : α) (entries : List (α × β)) : Option β :=
  (entries.find? (·.1 == key)).map (·.2)

/-- The entries without the one for `key`. -/
def erase [BEq α] (key : α) (entries : List (α × β)) : List (α × β) :=
  entries.filter fun e => !(e.1 == key)

end RuleCompiler.SortedList
