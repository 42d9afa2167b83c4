import RuleCompiler.Substitution
import RuleCompiler.Term.Value

/-! # Formulas

A conjunction of equations: bindings for the variables that are decided, equations that are not
decided yet, and lookups that wait for their collection. -/

namespace RuleCompiler

/-! ### Lookups

Equations over a collection that may not be known yet: they wait until the collection and the key
are concrete enough to tell what they come to. -/

inductive Lookup where
  /-- The value that `map` has for `key`. -/
  | mapValue (map key value : Term)
  /-- Whether `element` is in `set`. -/
  | setMember (set element holds : Term)
  /-- The item of `list` at `index`. -/
  | listItem (list index value : Term)
  /-- `key` is some key of `map`. -/
  | mapChoice (map key : Term)
  /-- `element` is some element of `set`. -/
  | setChoice (set element : Term)
deriving BEq, Inhabited

namespace Lookup

def mapChoiceLabel : String := "Map:choice"
def setChoiceLabel : String := "Set:choice"

/-- The lookup that an equation `call = result` states. -/
def ofCall? (call result : Term) : Option Lookup :=
  match call.node with
  | .app (.const l) [a, b] _ =>
    if l = "Map:lookup" then some (mapValue a b result)
    else if l = "Set:in" then some (setMember b a result)
    else if l = "List:get" then some (listItem a b result)
    else none
  | .app (.const l) [a] _ =>
    if l = mapChoiceLabel then some (mapChoice a result)
    else if l = setChoiceLabel then some (setChoice a result)
    else none
  | _ => none

/-- The lookup that an equation states, with the call on either side. -/
def ofEquation? (left right : Term) : Option Lookup := ofCall? left right <|> ofCall? right left

/-- Every term of the lookup changed by `f`. -/
def mapTerms (f : Term → Build Term) : Lookup → Build Lookup
  | mapValue m k v => return mapValue (← f m) (← f k) (← f v)
  | setMember s e h => return setMember (← f s) (← f e) (← f h)
  | listItem l i v => return listItem (← f l) (← f i) (← f v)
  | mapChoice m k => return mapChoice (← f m) (← f k)
  | setChoice s e => return setChoice (← f s) (← f e)

def terms : Lookup → List Term
  | mapValue m k v => [m, k, v]
  | setMember s e h => [s, e, h]
  | listItem l i v => [l, i, v]
  | mapChoice m k => [m, k]
  | setChoice s e => [s, e]

def isChoice : Lookup → Bool
  | mapChoice .. | setChoice .. => true
  | _ => false

/-- What a lookup comes to. -/
inductive Outcome where
  /-- It says no more and no less than this equation. -/
  | equation (left right : Term)
  | holds
  | fails
  /-- Not known yet. -/
  | pending

/-- The item at `index`; negative indices count from the end. -/
def itemAt? (items : List Term) (index : Int) : Option Term :=
  let i := if index < 0 then index + items.length else index
  if i < 0 then none else items[i.toNat]?

def resolve : Lookup → Outcome
  | mapValue map key value =>
    match map.node with
    | .map _ entries base =>
      if key.isGround then
        match SortedList.get? key entries with
        | some found => .equation value found
        | none => if base.isEmpty then .fails else .pending
      else .pending
    | _ => .pending
  | setMember set element holds =>
    match set.node with
    | .set _ elements base =>
      if element.isGround && elements.contains element then .equation holds (.bool true)
      else if base.isEmpty && (element.isGround || elements.isEmpty) then
        .equation holds (.bool false)
      else .pending
    | _ => .pending
  | listItem list index value =>
    match list.node, index.intValue? with
    | .list _ items base _, some i =>
      if base.isEmpty then
        match itemAt? items i with
        | some item => .equation value item
        | none => .fails
      else .pending
    | _, _ => .pending
  | mapChoice map key =>
    match map.node with
    | .map _ entries base =>
      if key.isGround && entries.any (·.1 == key) then .holds
      else if base.isEmpty && (key.isGround || entries.isEmpty) then .fails
      else .pending
    | _ => .pending
  | setChoice set element =>
    match set.node with
    | .set _ elements base =>
      if element.isGround && elements.contains element then .holds
      else if base.isEmpty && (element.isGround || elements.isEmpty) then .fails
      else .pending
    | _ => .pending

def render : Lookup → String
  | mapValue m k v => m.render ++ "[" ++ k.render ++ "] = " ++ v.render
  | setMember s e h => "(" ++ e.render ++ " in " ++ s.render ++ ") = " ++ h.render
  | listItem l i v => l.render ++ "[" ++ i.render ++ "] = " ++ v.render
  | mapChoice m k => k.render ++ " choice of " ++ m.render
  | setChoice s e => e.render ++ " choice of " ++ s.render

end Lookup

/-! ### Conjunctions -/

structure Formula where
  substitution : Substitution := {}
  /-- Equations that could not be decided. -/
  equations : List (Term × Term) := []
  lookups : List Lookup := []
  /-- Whether it is known to have no solution. -/
  isFalse : Bool := false
  /-- Labels of calls, which may come to anything. -/
  functions : List String := []
deriving BEq, Inhabited

namespace Formula

/-- The formula that states nothing, with the calls of `functions` undecidable. -/
def truth (functions : List String := []) : Formula := { functions }

def ofSubstitution (σ : Substitution) (functions : List String := []) : Formula :=
  { substitution := σ, functions }

/-- Nothing bound and nothing pending. -/
def isTrue (f : Formula) : Bool :=
  !f.isFalse && f.substitution.isEmpty && f.equations.isEmpty && f.lookups.isEmpty

/-- Satisfiable and fully described by its bindings. -/
def isSolved (f : Formula) : Bool := !f.isFalse && f.equations.isEmpty && f.lookups.isEmpty

/-- The terms that the formula is about. -/
def terms (f : Formula) : List Term :=
  f.substitution.terms ++ f.equations.flatMap (fun e => [e.1, e.2]) ++ f.lookups.flatMap (·.terms)

def apply (f : Formula) (t : Term) : Build Term := f.substitution.apply t

/-- Whether the term is a call. -/
def isCall (f : Formula) (t : Term) : Bool := t.constLabel?.any f.functions.contains

def falsify (f : Formula) : Formula := { f with isFalse := true, equations := [], lookups := [] }

/-- The equation kept for later, unless it is already, in either direction. -/
def keepEquation (f : Formula) (l r : Term) : Formula :=
  if f.equations.any fun e => e == (l, r) || e == (r, l) then f
  else { f with equations := f.equations ++ [(l, r)] }

def keepLookup (f : Formula) (d : Lookup) : Formula :=
  if f.lookups.contains d then f else { f with lookups := f.lookups ++ [d] }

/-- A variable bound, in the bound terms too. -/
def extend (f : Formula) (v : Var) (t : Term) : Build Formula :=
  return { f with substitution := ← f.substitution.extend v t }

def render (f : Formula) : String :=
  if f.isFalse then "false"
  else
    let equation (l r : String) := l ++ " = " ++ r
    let parts := f.substitution.bindings.map (fun b => equation b.1.render b.2.render) ++
      f.equations.map (fun e => equation e.1.render e.2.render) ++ f.lookups.map Lookup.render
    if parts.isEmpty then "true" else String.intercalate " /\\ " parts

end Formula

end RuleCompiler
