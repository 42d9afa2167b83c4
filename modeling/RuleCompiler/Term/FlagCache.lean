import RuleCompiler.Source.Basic
import RuleCompiler.Term.Flags
import RuleCompiler.Term.Sharing

/-! # Flags as nodes keep them

A node keeps its flags. They are computed from those of its children when the node is made, and once more
after it was edited in place. -/

namespace RuleCompiler

/-- What a node keeps: what occurs in the term, whether a node below is editable, and what the node is
itself. -/
structure NodeFlags where
  occurring : Flags := {}
  containsEditable : Bool := false
  isCanonical : Bool := false
  isEditable : Bool := false
deriving DecidableEq

/-- The flags of a node from those of its children. -/
def Node.flagsFrom (n : Node Term) (flagsOf : Term → NodeFlags) : NodeFlags where
  occurring := (n.children.map fun c => (flagsOf c).occurring).foldl Flags.or (Flags.ofNode n)
  containsEditable := n.children.any fun c => (flagsOf c).isEditable || (flagsOf c).containsEditable
  isCanonical := n.isCanonical

/-- The flags that nodes keep, by the numbers of the nodes. -/
abbrev FlagCache := Nat → NodeFlags

namespace FlagCache

/-- The flags that the node keeps. A canonical node has no children, and its flags are always the same. -/
def get (cache : FlagCache) (t : Term) : NodeFlags :=
  if t.isCanonical then t.node.flagsFrom fun _ => {} else cache t.mark.id

/-- The flags of the node numbered `id` replaced. -/
def set (cache : FlagCache) (id : Nat) (flags : NodeFlags) : FlagCache :=
  fun i => if i = id then flags else cache i

end FlagCache

/-- Edit a node in place and compute its flags again. Where the edit is refused everything stays. -/
def Term.editInPlace (cache : FlagCache) (t : Term) (others : List Term) (edits : List Edit) :
    Option (List EditResult) × Term × FlagCache :=
  match t.edit? others edits with
  | some (t', results) =>
    (some results, t', cache.set t.mark.id { t'.node.flagsFrom cache.get with isEditable := true })
  | none => (none, t, cache)

/-! ## Nodes made with their flags

Making nodes, marking them editable, and the walks that make nodes again, all with the flags that nodes
keep. Flags are computed once, when a node is made, from those that its children keep by then. Being marked
changes the flags of that node alone, and none of those that were computed from them. Where a walk may skip
what is below a node it asks the flags. -/

/-- Computations that make nodes and keep flags with them. -/
abbrev Keeping := StateT FlagCache Build

namespace FlagCache

/-- The flags of a node made since the next number was `start`, computed from those of its children; those
that are kept of an older one. -/
def since (cache : FlagCache) (start : Nat) : Term → NodeFlags :=
  Term.fold fun t below =>
    if t.isCanonical || t.mark.id < start then cache.get t else
      { occurring := (below.map (·.occurring)).foldl Flags.or (Flags.ofNode t.node)
        containsEditable := below.any fun f => f.isEditable || f.containsEditable
        isEditable := t.isEditable }

/-- The flags of the nodes of the terms that were made since the next number was `start`, with all that was
kept before. -/
def record (cache : FlagCache) (start : Nat) (ts : List Term) : FlagCache := fun id =>
  if id < start then cache id else
    match (ts.flatMap Term.nodes).find? fun c => !c.isCanonical && c.mark.id == id with
    | some c => cache.since start c
    | none => cache id

end FlagCache

namespace Keeping

/-- Make nodes, none of which is marked afterwards, and keep the flags of those that `parts` finds in what
was made. -/
def keep {α : Type} (parts : α → List Term) (x : Build α) : Keeping α := do
  let start ← (Build.nextId : Build Nat)
  let a ← x
  modify fun cache => cache.record start (parts a)
  return a

/-- `keep` for a single term. -/
def term (x : Build Term) : Keeping Term := keep ([·]) x

/-- Mark a node as editable or not. -/
def mark (t : Term) (isEditable : Bool) : Keeping Term := do
  modify fun cache => cache.set t.mark.id { cache t.mark.id with isEditable }
  return t.withEditable isEditable

/-- Mark a node as editable where nobody else can reach it. -/
def makeEditable (start : Nat) (t : Term) : Keeping Term :=
  if !t.isCanonical && start ≤ t.mark.id then mark t true else return t

/-- What comes out is marked as editable if it was made on the way. -/
def editable (x : Keeping Term) : Keeping Term := do
  let start ← (Build.nextId : Build Nat)
  makeEditable start (← x)

/-- Whether the node or one below it is editable, as the flags of the node tell. -/
def touchesEditable (t : Term) : Keeping Bool := do
  let flags := (← get).get t
  return flags.isEditable || flags.containsEditable

section Update
variable {m : Type → Type} [Monad m] [MonadLiftT Keeping m]

/-- `Term.update` with flags. -/
def update (t : Term) (below : List (m Term)) (frame : Term → m Term) : m Term := do
  let start ← (liftM (Build.nextId : Build Nat) : Keeping Nat)
  let children ← below.mapM id
  let frames ← t.frames.mapM fun v => do
    let node ← term (Term.var v)
    return (node, ← frame node)
  if Term.allSame t.children children && frames.all fun (old, new) => old.same new then return t
  let t' ← term (t.rebuild children (frames.map (·.2)))
  if t.isEditable then makeEditable start t' else return t'

end Update

/-- `Term.deepCopy` with flags. -/
def deepCopy : Term → Keeping Term :=
  Term.fold fun t below => do
    if !(← touchesEditable t) then return t
    let t' ← update t below pure
    if t'.same t then term t.copy else return t'

/-- `Term.freeze` with flags. -/
def freeze : Term → Keeping Term :=
  Term.fold fun t below => do
    if !(← touchesEditable t) then return t
    let t' ← update t below pure
    if !t'.isEditable then return t'
    let t' ← if t'.same t then term t'.copy else pure t'
    mark t' false

/-- `Term.unshare` with flags. -/
def unshare : Term → StateT (List Nat) Keeping Term :=
  Term.fold fun t below => do
    if !(← touchesEditable t) then return t
    if t.isEditable && (← getThe (List Nat)).contains t.mark.id then deepCopy t
    else
      if t.isEditable then modifyThe (List Nat) (t.mark.id :: ·)
      update t below pure

/-- `Term.unshareAll` with flags. -/
def unshareAll (ts : List Term) : Keeping (List Term) := (ts.mapM unshare).run' []

end Keeping

/-! ### Walks that skip

The flags are read as they are kept when the walk begins, and of the nodes that it is given alone. -/

namespace Term

/-- Every occurrence of a variable, found without going below nodes whose flags tell of none. -/
def varsKept (cache : FlagCache) (t : Term) : List Var :=
  (t.visited fun u => (cache.get u).occurring.hasVariable).filterMap asVar?

/-- Variables replaced as `value` says; nodes whose flags tell of no variable stay as they are. -/
def substituteKept (cache : FlagCache) (value : Var → Option Term) : Term → Build Term :=
  fold fun t below =>
    if !(cache.get t).occurring.hasVariable then return t
    else match t.asVar? with
      | some v => return (value v).getD t
      | none => t.update below fun node => return (node.asVar?.bind value).getD node

/-- Every rewrite replaced by one side of it, in which nothing is replaced if its flags tell of no
rewrite. -/
def takeSide (cache : FlagCache) (s : Side) : Term → Build Term :=
  fold fun t below => match t.node, below with
    | .rewrite l r, [belowLeft, belowRight] =>
      let side := s.select l r
      if (cache.get side).occurring.hasRewrite then s.select belowLeft belowRight else return side
    | _, below => t.update below pure

/-- A side of a term, which is the term itself if its flags tell of no rewrite. -/
def sideKept (cache : FlagCache) (s : Side) (t : Term) : Build Term :=
  if (cache.get t).occurring.hasRewrite then t.takeSide cache s else return t

end Term

end RuleCompiler
