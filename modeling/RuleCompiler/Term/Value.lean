import RuleCompiler.Term.Order

/-! # Primitive values

Integers are tokens of sort `Int`, of 128 bits with sign; truth values are the tokens `true` and
`false` of sort `Bool`. -/

namespace RuleCompiler.Term

def minInt : Int := -0x80000000000000000000000000000000
def maxInt : Int := 0x7fffffffffffffffffffffffffffffff

/-- The integer, where it fits in the range. -/
def inRange? (n : Int) : Option Int := if minInt ≤ n ∧ n ≤ maxInt then some n else none

/-- The number that decimal digits denote. -/
def digits? (cs : List Char) : Option Nat :=
  if cs.isEmpty then none
  else cs.foldl (fun n c => n.bind fun n =>
    if '0' ≤ c ∧ c ≤ '9' then some (n * 10 + (c.toNat - '0'.toNat)) else none) (some 0)

/-- An integer in range, written with decimal digits after an optional sign. -/
def parseInt? (s : String) : Option Int :=
  match s.toList with
  | '-' :: cs => (digits? cs).bind fun n => inRange? (-(n : Int))
  | '+' :: cs => (digits? cs).bind fun n => inRange? n
  | cs => (digits? cs).bind fun n => inRange? n

def intValue? (t : Term) : Option Int :=
  match t.node with
  | .token s v => if s = .int then parseInt? v else none
  | _ => none

def boolValue? (t : Term) : Option Bool :=
  match t.node with
  | .token s v =>
    if s ≠ .bool then none
    else if v = "true" then some true
    else if v = "false" then some false
    else none
  | _ => none

end RuleCompiler.Term
