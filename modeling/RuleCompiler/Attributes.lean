import RuleCompiler.Location
import RuleCompiler.Sort

/-! # Attributes

The keys, some with a value, that sentences and front-end terms carry, and where they stand in
their source. A key occurs at most once. -/

namespace RuleCompiler

structure Attributes where
  entries : List (String × Option String) := []
  location : Option Location := none
deriving DecidableEq, Inhabited

namespace Attributes

def contains (a : Attributes) (key : String) : Bool := a.entries.any (·.1 == key)

/-- The value of `key`, where it is present with one. -/
def get? (a : Attributes) (key : String) : Option String :=
  (a.entries.find? (·.1 == key)).bind (·.2)

/-- `key` with a new value, in its old place if it has one. -/
def set (a : Attributes) (key : String) (value : Option String) : Attributes :=
  if a.contains key then
    { a with entries := a.entries.map fun e => if e.1 == key then (key, value) else e }
  else { a with entries := a.entries ++ [(key, value)] }

/-- `key` without a value. -/
def flag (a : Attributes) (key : String) : Attributes := a.set key none

def withValue (a : Attributes) (key value : String) : Attributes := a.set key (some value)

def withLocation (a : Attributes) (l : Location) : Attributes := { a with location := some l }

/-- The sort named by the attribute `sort`. -/
def sort? (a : Attributes) : Option SortName := (a.get? "sort").map (⟨·⟩)

/-- The entries of `b`, and its location, where `a` has none. -/
def inherit (a b : Attributes) : Attributes :=
  { entries := a.entries ++ b.entries.filter fun e => !a.contains e.1
    location := a.location <|> b.location }

end Attributes

end RuleCompiler
