/-! # Sorts

A sort is a name. Subsorting is shallow: every sort is below `K`, every sort other than `K` is
below `KItem`, and otherwise two sorts are comparable only when they are equal. -/

namespace RuleCompiler

/-- The name of a sort. -/
structure SortName where
  name : String
deriving DecidableEq, Repr, Inhabited

namespace SortName

def k : SortName := ⟨"K"⟩
def kItem : SortName := ⟨"KItem"⟩
def bool : SortName := ⟨"Bool"⟩
def int : SortName := ⟨"Int"⟩
def string : SortName := ⟨"String"⟩
def bag : SortName := ⟨"Bag"⟩
def list : SortName := ⟨"List"⟩
def map : SortName := ⟨"Map"⟩
def set : SortName := ⟨"Set"⟩

/-- `K` and `KItem`, the sorts of whole computations. -/
def isComputational (s : SortName) : Bool := s == k || s == kItem

/-- Sorts whose tokens carry a primitive value. -/
def builtinData : List SortName := [bool, int, ⟨"Float"⟩, string, ⟨"Id"⟩]

def isBuiltinData (s : SortName) : Bool := builtinData.contains s

/-- Whether every term of sort `s` may stand where one of sort `t` is expected. -/
def subsortOf (s t : SortName) : Bool := s == t || t == k || (t == kItem && s != k)

@[simp] theorem subsortOf_refl (s : SortName) : s.subsortOf s = true := by simp [subsortOf]

@[simp] theorem subsortOf_k (s : SortName) : s.subsortOf k = true := by simp [subsortOf]

theorem subsortOf_trans {s t u : SortName} (h : s.subsortOf t) (h' : t.subsortOf u) :
    s.subsortOf u := by
  simp only [subsortOf, Bool.or_eq_true, Bool.and_eq_true, beq_iff_eq, bne_iff_ne] at *
  rcases h with (rfl | rfl) | ⟨rfl, hs⟩
  · exact h'
  · rcases h' with (rfl | rfl) | ⟨_, h⟩
    · exact .inl (.inr rfl)
    · exact .inl (.inr rfl)
    · exact (h rfl).elim
  · rcases h' with (rfl | rfl) | ⟨rfl, _⟩
    · exact .inr ⟨rfl, hs⟩
    · exact .inl (.inr rfl)
    · exact .inr ⟨rfl, hs⟩

end SortName

end RuleCompiler
