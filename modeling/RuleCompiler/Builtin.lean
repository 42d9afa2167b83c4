import RuleCompiler.Formula.Solve
import RuleCompiler.Term.Value

/-! # Built-in operations

Integer arithmetic, truth values, equality and access to collections. An operation answers only
when its answer is certain: integers have to be known and the result has to be in range, and two
terms are different only when no instance of them is equal. -/

namespace RuleCompiler

inductive Arithmetic where
  | add
  | sub
  | mul
  | div
  | mod
deriving DecidableEq, Inhabited

inductive Comparison where
  | lt
  | le
  | gt
  | ge
  | eq
  | ne
deriving DecidableEq, Inhabited

inductive Connective where
  | and
  | or
  | not
  | implies
deriving DecidableEq, Inhabited

inductive Builtin where
  | arithmetic (op : Arithmetic)
  | comparison (op : Comparison)
  | connective (op : Connective)
  /-- Whether two terms are equal, or whether they differ. -/
  | equality (wanted : Bool)
  /-- The value of a key. -/
  | mapValue
  /-- Whether a set has an element. -/
  | setMember
  /-- The item at a position, counted from the end when negative. -/
  | listItem
deriving DecidableEq, Inhabited

/-- The result, where it is in range; quotients round toward zero. -/
def Arithmetic.apply : Arithmetic → Int → Int → Option Int
  | add, a, b => Term.inRange? (a + b)
  | sub, a, b => Term.inRange? (a - b)
  | mul, a, b => Term.inRange? (a * b)
  | div, a, b => if b = 0 then none else Term.inRange? (a.tdiv b)
  | mod, a, b => if b = 0 then none else (Term.inRange? (a.tdiv b)).map fun _ => a.tmod b

def Comparison.apply : Comparison → Int → Int → Bool
  | lt, a, b => a < b
  | le, a, b => a ≤ b
  | gt, a, b => a > b
  | ge, a, b => a ≥ b
  | eq, a, b => a == b
  | ne, a, b => a != b

/-- How integers and truth values are read and written. -/
structure Primitives (α : Type) where
  int? : α → Option Int
  bool? : α → Option Bool
  int : Int → α
  bool : Bool → α

namespace Primitives
variable {α : Type} (P : Primitives α)

/-- The result of a connective; one known operand can be enough. -/
def connect (op : Connective) (args : List α) : Option α :=
  match op, args with
  | .not, [a] => (P.bool? a).map fun a => P.bool !a
  | .and, [a, b] =>
    match P.bool? a, P.bool? b with
    | some false, _ | _, some false => some (P.bool false)
    | some true, _ => some b
    | _, some true => some a
    | _, _ => none
  | .or, [a, b] =>
    match P.bool? a, P.bool? b with
    | some true, _ | _, some true => some (P.bool true)
    | some false, _ => some b
    | _, some false => some a
    | _, _ => none
  | .implies, [a, b] =>
    match P.bool? a, P.bool? b with
    | some false, _ | _, some true => some (P.bool true)
    | some true, _ => some b
    | _, _ => none
  | _, _ => none

/-- The result of an operation on integers and truth values. -/
def apply (op : Builtin) (args : List α) : Option α :=
  match op, args with
  | .connective op, args => P.connect op args
  | .arithmetic op, [a, b] => do return P.int (← op.apply (← P.int? a) (← P.int? b))
  | .comparison op, [a, b] => do return P.bool (op.apply (← P.int? a) (← P.int? b))
  | _, _ => none

end Primitives

/-- Primitive values as terms. -/
def Term.primitives : Primitives Term := ⟨intValue?, boolValue?, .int, .bool⟩

namespace Builtin

/-- Every operation, with its name, the hook that a production names it by, and the label that
means it without a production. -/
def table : List (Builtin × String × String × String) :=
  [(arithmetic .add, "IntAdd", "INT.add", "_+Int_"),
    (arithmetic .sub, "IntSub", "INT.sub", "_-Int_"),
    (arithmetic .mul, "IntMul", "INT.mul", "_*Int_"),
    (arithmetic .div, "IntDiv", "INT.tdiv", "_/Int_"),
    (arithmetic .mod, "IntMod", "INT.tmod", "_%Int_"),
    (comparison .lt, "IntLt", "INT.lt", "_<Int_"),
    (comparison .le, "IntLe", "INT.le", "_<=Int_"),
    (comparison .gt, "IntGt", "INT.gt", "_>Int_"),
    (comparison .ge, "IntGe", "INT.ge", "_>=Int_"),
    (comparison .eq, "IntEq", "INT.eq", "_==Int_"),
    (comparison .ne, "IntNe", "INT.ne", "_=/=Int_"),
    (connective .and, "BoolAnd", "BOOL.and", "_andBool_"),
    (connective .or, "BoolOr", "BOOL.or", "_orBool_"),
    (connective .not, "BoolNot", "BOOL.not", "notBool_"),
    (connective .implies, "BoolImplies", "BOOL.implies", "_impliesBool_"),
    (equality true, "KEq", "KEQUAL.eq", "_==K_"),
    (equality false, "KNe", "KEQUAL.ne", "_=/=K_"),
    (mapValue, "MapLookup", "MAP.lookup", "Map:lookup"),
    (setMember, "SetIn", "SET.in", "Set:in"),
    (listItem, "ListGet", "LIST.get", "List:get")]

def name (op : Builtin) : String := ((table.find? (·.1 == op)).map (·.2.1)).getD ""

def ofHook? (hook : String) : Option Builtin := (table.find? (·.2.2.1 == hook)).map (·.1)

def ofLabel? (label : String) : Option Builtin := (table.find? (·.2.2.2 == label)).map (·.1)

/-- The sort of the result, where it does not depend on a collection. -/
def resultSort? : Builtin → Option SortName
  | arithmetic _ => some .int
  | comparison _ | connective _ | equality _ | setMember => some .bool
  | mapValue | listItem => none

/-- Whether two terms are equal in every instance, or in none. -/
def decideEqual? (functions : List String) (a b : Term) : Build (Option Bool) := do
  if a == b then return some true
  if [a, b].all fun t => t.isGround && !t.mentions functions then return some false
  return if (← (Formula.truth functions).add a b).isFalse then some false else none

/-- Access to a collection. -/
def access? (op : Builtin) (args : List Term) : Option Term :=
  match op, args with
  | mapValue, [map, key] =>
    match map.node with
    | .map _ entries _ => if key.isGround then SortedList.get? key entries else none
    | _ => none
  | setMember, [element, set] =>
    match set.node with
    | .set _ elements base =>
      if !element.isGround then none
      else if elements.contains element then some (.bool true)
      else if base.isEmpty then some (.bool false)
      else none
    | _ => none
  | listItem, [list, index] =>
    match list.node with
    | .list _ left base _ =>
      index.intValue?.bind fun i => if base.isEmpty then Lookup.itemAt? left i else none
    | _ => none
  | _, _ => none

/-- The result of an operation, where it is certain. Calls of `functions` may come to anything. -/
def apply (functions : List String) (op : Builtin) (args : List Term) : Build (Option Term) :=
  match op, args with
  | equality wanted, [a, b] =>
    return (← decideEqual? functions a b).map fun eq => Term.bool (eq == wanted)
  | op, args => return Term.primitives.apply op args <|> op.access? args

end Builtin

end RuleCompiler
