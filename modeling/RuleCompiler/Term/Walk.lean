import RuleCompiler.Term.Builder

/-! # Walks over terms

Views collect what occurs in a term. Changes are made by `update`, which computes new children and
puts them into a node, through the builders, so that collections stay in normal form. A node none
of whose children became another node is kept as it is, so an untouched subtree stays the same
term. -/

namespace RuleCompiler.Term

/-! ### Views -/

/-- The frames as variables. They are no nodes of the term. -/
def frameTerms (t : Term) : List Term := t.frames.map fun v => canonical (.var v)

/-- The children and then the frames. -/
def parts (t : Term) : List Term := t.children ++ t.frameTerms

/-- The nodes and frames that a walk from the top visits when it goes below those that `descend`
accepts. -/
def visited (descend : Term → Bool) : Term → List Term :=
  fold fun t below => t :: if descend t then below.flatten ++ t.frameTerms else []

/-- Every node and frame. -/
def subterms : Term → List Term := visited fun _ => true

/-- The nodes of a term, from the top down. Frames are no nodes. -/
def nodes : Term → List Term := fold fun t below => t :: below.flatten

/-- Whether some node or frame satisfies `p`. -/
def anyNode (p : Term → Bool) : Term → Bool :=
  fold fun t below => p t || below.any id || t.frameTerms.any p

/-- Whether the term has no variables, frames included. -/
def isGround (t : Term) : Bool := !t.anyNode isVar

def isRewrite (t : Term) : Bool :=
  match t.node with
  | .rewrite .. => true
  | _ => false

def hasRewrite (t : Term) : Bool := t.anyNode isRewrite

def isDisjunction (t : Term) : Bool :=
  match t.node with
  | .disjunction _ => true
  | _ => false

def hasDisjunction (t : Term) : Bool := t.anyNode isDisjunction

/-- Every occurrence of a variable, from left to right. -/
def vars : Term → List Var :=
  fold fun t below => match t.node with
    | .var v => [v]
    | _ => below.flatten ++ t.frames

/-- Whether an application of one of `labels` occurs. -/
def mentions (labels : List String) : Term → Bool :=
  anyNode fun t => t.constLabel?.any labels.contains

/-- Whether the node or one below it is editable. -/
def touchesEditable : Term → Bool := anyNode isEditable

/-- Whether a node below is editable. -/
def containsEditable (t : Term) : Bool := t.children.any touchesEditable

/-- Whether the node numbered `id` occurs. -/
def holds (id : Nat) : Term → Bool := anyNode fun t => !t.isCanonical && t.mark.id == id

/-! ### Rebuilding -/

/-- New contents for the present entries, in order. -/
def refill : List (Option Term) → List Term → List (Option Term)
  | some _ :: ts, c :: cs => some c :: refill ts cs
  | none :: ts, cs => none :: refill ts cs
  | _, _ => []

/-- Entries from a list that alternates keys and values. -/
def pairUp : List Term → List (Term × Term)
  | k :: v :: ts => (k, v) :: pairUp ts
  | _ => []

/-- A new node of the same kind with other children, in the order of `children`, and with what the
frames have become. -/
def rebuild (t : Term) (cs frames : List Term) : Build Term :=
  match t.node, cs with
  | .app (.const l) _ s, cs => app (.const l) cs s
  | .app (.freezer _) _ s, c :: cs => app (.freezer c) cs s
  | .seq .., cs => sequence (cs ++ frames)
  | .list ops left base _, cs => do
    let add (p : ListParts) (c : Term) : Build ListParts :=
      if ops.isOperator then p.concat c else return p.addItem c
    let (ls, rest) := cs.splitAt left.length
    let (bs, rs) := rest.splitAt base.length
    let p ← ls.foldlM add { ops }
    let p ← bs.foldlM ListParts.concat p
    (← rs.foldlM add p).build
  | .map ops entries _, cs =>
    let (es, bs) := cs.splitAt (2 * entries.length)
    (bs.foldl MapParts.concat ((pairUp es).foldl (fun p e => p.put e.1 e.2) { ops })).build
  | .set ops elements _, cs =>
    let (es, bs) := cs.splitAt elements.length
    (bs.foldl SetParts.concat (es.foldl SetParts.add { ops })).build
  | .cells parts _, cs =>
    cellsFrom (parts.zipWith (fun cell content => { cell with content }) cs) frames
  | .rewrite .., [l, r] => rewrite l r
  | .disjunction branches, cs => new (.disjunction (branches.zipWith (fun b c => (c, b.2)) cs))
  | .rightSides byRule, cs => new (.rightSides (refill byRule cs))
  | _, _ => return t

section Update
variable {m : Type → Type} [Monad m] [MonadLiftT Build m]

/-- Compute new children, from left to right, then what the frames become, and put them into the
node. Where everything stays the same the node does too. What replaces an editable node is
editable unless somebody else holds it. -/
def update (t : Term) (below : List (m Term)) (frame : Term → m Term) : m Term := do
  let start ← Build.nextId
  let children ← below.mapM id
  let frames ← t.frames.mapM fun v => do
    let node ← var v
    return (node, ← frame node)
  if allSame t.children children && frames.all fun (old, new) => old.same new then return t
  let t' ← t.rebuild children (frames.map (·.2))
  return if t.isEditable then makeEditable start t' else t'

/-- Replace nodes from the top down: where `visit` answers, its answer stands for the whole
subtree. -/
def replaceDown (visit : Term → m (Option Term)) : Term → m Term :=
  fold fun t below => do
    match ← visit t with
    | some t' => return t'
    | none => t.update below fun v => return (← visit v).getD v

/-- Replace nodes from the leaves up, `visit` seeing each node with its new children. -/
def replaceUp (visit : Term → m Term) : Term → m Term :=
  fold fun t below => do visit (← t.update below visit)

/-- The children of one node replaced. -/
def replaceChildren (visit : Term → m Term) (t : Term) : m Term :=
  t.update (t.children.map visit) visit

end Update

/-- Variables replaced as `value` says. -/
def substitute (value : Var → Option Term) : Term → Build Term :=
  replaceDown fun t => return t.asVar?.bind value

/-- Variables renamed as `name` says. -/
def rename (name : Var → Option Var) : Term → Build Term :=
  replaceDown fun t => (t.asVar?.bind name).mapM var

/-! ### Sides -/

/-- Every rewrite replaced by its left side. -/
def leftSide : Term → Build Term :=
  fold fun t below => match t.node, below with
    | .rewrite .., [l, _] => l
    | _, below => t.update below pure

/-- Every rewrite replaced by its right side. -/
def rightSide : Term → Build Term :=
  fold fun t below => match t.node, below with
    | .rewrite .., [_, r] => r
    | _, below => t.update below pure

/-! ### Conjunctions -/

/-- The label of conjunctions of side conditions. -/
def andLabel : String := "_andBool_"

/-- Whether the term is the truth value `true`. -/
def isTrue (t : Term) : Bool :=
  match t.node with
  | .token s v => s = .bool && v = "true"
  | _ => false

/-- The conjuncts of a side condition, those that are plainly true left out. -/
def conjuncts : Term → List Term :=
  fold fun t below =>
    let single := if t.isTrue then [] else [t]
    match t.node, below with
    | .app (.const l) [_, _] _, [a, b] => if l = andLabel then a ++ b else single
    | _, _ => single

end RuleCompiler.Term
