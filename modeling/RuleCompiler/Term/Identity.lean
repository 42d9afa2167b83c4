import RuleCompiler.Term.Order

/-! # Making nodes

`Build` is the monad that new nodes are made in: it numbers them, and it ends with a `Clash` when
cells are merged with something that is none. `Term.same` tells whether two terms are one node. -/

namespace RuleCompiler

/-- A term that a cell collection was asked to merge though it is neither cells nor a variable. -/
structure Clash where
  stray : Term
deriving Inhabited

/-- Computations that make nodes. The state is the number of the next one; it survives a clash. -/
abbrev Build := ExceptT Clash (StateM Nat)

namespace Build

/-- The number that the next node will have. -/
def nextId : Build Nat := getThe Nat

/-- A number that no node has. -/
def freshId : Build Nat := modifyGetThe Nat fun n => (n, n + 1)

end Build

namespace Term

/-- Whether two terms are one node. Canonical nodes exist once, so equal ones are the same. -/
def same (t u : Term) : Bool :=
  if t.isCanonical then u.isCanonical && t == u else !u.isCanonical && t.mark.id == u.mark.id

/-- Whether the terms of two lists are the same, one by one. -/
def allSame (ts us : List Term) : Bool := (ts.zip us).all fun (t, u) => t.same u

/-- A new node, unless there is a canonical one of this kind. -/
def new (n : Node Term) : Build Term :=
  if n.isCanonical then return canonical n else return ⟨{ id := ← Build.freshId }, n⟩

/-- A new node for every occurrence of a variable. -/
def var (v : Var) : Build Term := new (.var v)

def app (label : Label) (args : List Term) (s : SortName := .kItem) : Build Term :=
  new (.app label args s)

def rewrite (left right : Term) : Build Term := new (.rewrite left right)

/-- A new node with the contents of this one. -/
def copy (t : Term) : Build Term :=
  if t.isCanonical then return t else return { t with mark.id := ← Build.freshId }

def withEditable (t : Term) (isEditable : Bool) : Term := { t with mark.isEditable := isEditable }

/-- The node made editable where nobody else can reach it: it is not canonical and among those
made since the next number was `start`. -/
def makeEditable (start : Nat) (t : Term) : Term :=
  if !t.isCanonical && start ≤ t.mark.id then t.withEditable true else t

end Term

end RuleCompiler
