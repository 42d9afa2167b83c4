import RuleCompiler.Term.Walk

/-! # Editable nodes

A node that was built to be edited may be changed in place as long as it has a single owner. The
operations here keep that apart from sharing: `freeze` makes everything uneditable, `deepCopy`
gives private nodes, and `unshareAll` leaves every editable node in one place. All of them answer
a term equal to the given one, and the very same node where nothing below is editable. -/

namespace RuleCompiler

namespace Term

/-! ### Copies -/

/-- The same term in new nodes wherever a node is editable. -/
def deepCopy : Term → Build Term :=
  fold fun t below => do
    if !t.touchesEditable then return t
    let t' ← t.update below pure
    if t'.same t then t.copy else return t'

/-- The same term with nothing editable in it. -/
def freeze : Term → Build Term :=
  fold fun t below => do
    if !t.touchesEditable then return t
    let t' ← t.update below pure
    if !t'.isEditable then return t'
    let t' ← if t'.same t then t'.copy else pure t'
    return t'.withEditable false

/-- Keep the first occurrence of every editable node and copy the later ones. The state lists the
numbers of those seen so far, also in terms that came before. -/
def unshare : Term → StateT (List Nat) Build Term :=
  fold fun t below => do
    if !t.touchesEditable then return t
    if t.isEditable && (← get).contains t.mark.id then t.deepCopy
    else
      if t.isEditable then modify (t.mark.id :: ·)
      t.update below pure

/-- The terms with no editable node in two places. -/
def unshareAll (ts : List Term) : Build (List Term) := (ts.mapM unshare).run' []

end Term

/-! ### Editing -/

inductive Edit where
  | put (key value : Term)
  | remove (part : Term)
  | add (element : Term)
  | setContent (label : String) (content : Term)
  /-- A change that no kind of node allows. -/
  | other (parts : List Term)

inductive EditResult where
  /-- The value that was there before. -/
  | previous (value : Option Term)
  | changed (did : Bool)
  /-- The node has no such part. -/
  | misfit

namespace Edit

/-- The terms that an edit is written with. -/
def parts : Edit → List Term
  | put k v => [k, v]
  | remove t | add t | setContent _ t => [t]
  | other ts => ts

/-- The content of the only cell of a label replaced. -/
def setOnlyContent (label : String) (content : Term) (cells : List Cell) : List Cell × Bool :=
  if (cells.filter (·.label == label)).length = 1 then
    (cells.map fun c => if c.label == label then { c with content } else c, true)
  else (cells, false)

/-- The node with the edit done, not brought into normal form. -/
def run (e : Edit) (n : Node Term) : Node Term × EditResult :=
  match e, n with
  | put k v, .map ops entries base =>
    (.map ops (SortedList.put Term.cmp k v entries) base, .previous (SortedList.get? k entries))
  | remove k, .map ops entries base =>
    (.map ops (SortedList.erase k entries) base, .previous (SortedList.get? k entries))
  | add x, .set ops elements base =>
    (.set ops (SortedList.addNew Term.cmp x elements) base, .changed (!elements.contains x))
  | remove x, .set ops elements base =>
    (.set ops (elements.filter (· != x)) base, .changed (elements.contains x))
  | setContent l c, .cells cells frames =>
    let (cells, did) := setOnlyContent l c cells
    (.cells cells frames, .changed did)
  | _, n => (n, .misfit)

def runAll : List Edit → Node Term → Node Term × List EditResult
  | [], n => (n, [])
  | e :: es, n =>
    let (n, r) := e.run n
    let (n, rs) := runAll es n
    (n, r :: rs)

end Edit

/-- Edit a node in place: `none` unless it is editable and nothing else holds it, neither `others`
nor the edits. -/
def Term.edit? (t : Term) (others : List Term) (edits : List Edit) :
    Option (Term × List EditResult) :=
  if t.isEditable && !(others ++ edits.flatMap Edit.parts).any (·.holds t.mark.id) then
    let (node, results) := Edit.runAll edits t.node
    some ({ t with node }, results)
  else none

end RuleCompiler
