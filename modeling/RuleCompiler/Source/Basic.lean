import RuleCompiler.Attributes

/-! # Source terms

Terms as a parser hands them over: plain applications without sorts of their own, each node with
its attributes. -/

namespace RuleCompiler

inductive SourceTerm where
  | apply (label : String) (args : List SourceTerm) (attributes : Attributes)
  | token (sort : SortName) (value : String) (attributes : Attributes)
  | sequence (items : List SourceTerm) (attributes : Attributes)
  /-- A variable; its sort is an attribute. -/
  | var (name : String) (attributes : Attributes)
  | rewrite (left right : SourceTerm) (attributes : Attributes)
  /-- A label used as a value. -/
  | label (label : String) (attributes : Attributes)
deriving Inhabited

/-- A side of a rewrite. -/
inductive Side where
  | left
  | right
deriving DecidableEq, Inhabited

/-- One of two things, by side. -/
def Side.select {α : Type} (l r : α) : Side → α
  | left => l
  | right => r

namespace SourceTerm

def int (n : Int) : SourceTerm := token .int (toString n) {}

def bool (b : Bool) : SourceTerm := token .bool (if b then "true" else "false") {}

def varOfSort (name : String) (s : SortName) : SourceTerm :=
  var name (Attributes.withValue {} "sort" s.name)

def attributes : SourceTerm → Attributes
  | apply _ _ a | token _ _ a | sequence _ a | var _ a | rewrite _ _ a | label _ a => a

def withAttributes (a : Attributes) : SourceTerm → SourceTerm
  | apply l args _ => apply l args a
  | token s v _ => token s v a
  | sequence items _ => sequence items a
  | var x _ => var x a
  | rewrite l r _ => rewrite l r a
  | label l _ => label l a

/-- The term placed at a location. -/
def placedAt (t : SourceTerm) (l : Location) : SourceTerm :=
  t.withAttributes (t.attributes.withLocation l)

def location? (t : SourceTerm) : Option Location := t.attributes.location

def isRewrite : SourceTerm → Bool
  | rewrite .. => true
  | _ => false

def children : SourceTerm → List SourceTerm
  | apply _ args _ => args
  | sequence items _ => items
  | rewrite l r _ => [l, r]
  | token .. | var .. | label .. => []

/-! ### Folding -/

section Fold
variable {α : Type} (f : SourceTerm → List α → α)

mutual
/-- Every node with the values of its children. -/
def fold : SourceTerm → α
  | t@(apply _ args _) => f t (foldAll args)
  | t@(sequence items _) => f t (foldAll items)
  | t@(rewrite l r _) => f t [fold l, fold r]
  | t@(token ..) => f t []
  | t@(var ..) => f t []
  | t@(label ..) => f t []

def foldAll : List SourceTerm → List α
  | [] => []
  | t :: ts => fold t :: foldAll ts
end

theorem foldAll_eq (ts : List SourceTerm) : foldAll f ts = ts.map (fold f) := by
  induction ts with
  | nil => simp [foldAll]
  | cons t ts ih => simp [foldAll, ih]

/-- A fold meets a node with the folds of its children. -/
theorem fold_eq (t : SourceTerm) : fold f t = f t (t.children.map (fold f)) := by
  cases t <;> simp [fold, children, foldAll_eq]

end Fold

/-- The number of nodes. -/
def size : SourceTerm → Nat := fold fun _ below => below.foldr (· + ·) 0 + 1

def containsRewrite : SourceTerm → Bool := fold fun t below => t.isRewrite || below.contains true

/-- The first rewrite from the top, left to right. -/
def firstRewrite? : SourceTerm → Option SourceTerm :=
  fold fun t below => if t.isRewrite then some t else below.findSome? id

/-- Every rewrite replaced by one of its sides. -/
def project (side : Side) : SourceTerm → SourceTerm :=
  fold fun t below => match t, below with
    | rewrite .., [l, r] => side.select l r
    | apply l _ a, args => apply l args a
    | sequence _ a, items => sequence items a
    | t, _ => t

end SourceTerm

/-! ## Source definitions

A definition is a list of modules, and a module a list of sentences: productions that declare
labels, rules, initial configurations and priorities. -/

/-- The declaration of a label: result sort and number of arguments. -/
structure Production where
  label : String
  sort : SortName
  arity : Nat
  attributes : Attributes := {}
deriving Inhabited

/-- The tag that priorities name the production by. -/
def Production.tag (p : Production) : String := (p.attributes.get? "tag").getD p.label

structure SourceRule where
  body : SourceTerm
  requires? : Option SourceTerm := none
  ensures? : Option SourceTerm := none
  attributes : Attributes := {}
deriving Inhabited

/-- An initial configuration; applications with the attribute `cell` declare cells. -/
structure Configuration where
  body : SourceTerm
  attributes : Attributes := {}
deriving Inhabited

/-- Blocks of production tags, the highest priority first. -/
structure Priority where
  blocks : List (List String)
  attributes : Attributes := {}
deriving Inhabited

inductive Sentence where
  | production (p : Production)
  | rule (r : SourceRule)
  | configuration (c : Configuration)
  | priority (p : Priority)
deriving Inhabited

structure SourceModule where
  name : String
  imports : List String := []
  sentences : List Sentence := []
  attributes : Attributes := {}
deriving Inhabited

structure SourceDefinition where
  main : String
  modules : List SourceModule
deriving Inhabited

/-- The first module of a name. -/
def SourceDefinition.module? (d : SourceDefinition) (name : String) : Option SourceModule :=
  d.modules.find? (·.name == name)

end RuleCompiler
