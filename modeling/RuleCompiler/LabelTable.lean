import RuleCompiler.Source.Basic

/-! # The label table

What the productions of a definition declare about each label. The first production of a label
fixes its sort and arity; later ones only add attributes. -/

namespace RuleCompiler

structure LabelInfo where
  sort : SortName
  arity : Nat
  attributes : Attributes
deriving DecidableEq, Inhabited

inductive CollectionKind where
  | list
  | map
  | set
deriving DecidableEq, Inhabited

/-- What a label contributes to a collection. -/
inductive CollectionRole where
  | concat
  | unit
  | element
deriving DecidableEq, Inhabited

namespace CollectionKind

def ofText? : String → Option CollectionKind
  | "LIST" => some list
  | "MAP" => some map
  | "SET" => some set
  | _ => none

/-- The kind as a capitalised word. -/
def word : CollectionKind → String
  | list => "List"
  | map => "Map"
  | set => "Set"

end CollectionKind

namespace CollectionRole

def ofText? : String → Option CollectionRole
  | "concat" => some concat
  | "unit" => some unit
  | "element" => some element
  | _ => none

/-- The role as a capitalised word. -/
def word : CollectionRole → String
  | concat => "Concat"
  | unit => "Unit"
  | element => "Element"

end CollectionRole

/-- Labels in the order of their first declaration. -/
structure LabelTable where
  entries : List (String × LabelInfo) := []
deriving Inhabited

namespace LabelTable

def get? (t : LabelTable) (label : String) : Option LabelInfo :=
  (t.entries.find? (·.1 == label)).map (·.2)

def size (t : LabelTable) : Nat := t.entries.length

/-- Enter a production. -/
def declare (t : LabelTable) (p : Production) : LabelTable :=
  match t.get? p.label with
  | some _ => ⟨t.entries.map fun e =>
      if e.1 == p.label then (e.1, { e.2 with attributes := e.2.attributes.inherit p.attributes })
      else e⟩
  | none => ⟨t.entries ++ [(p.label, ⟨p.sort, p.arity, p.attributes⟩)]⟩

def ofProductions (ps : List Production) : LabelTable := ps.foldl declare {}

def labels (t : LabelTable) : List String := t.entries.map (·.1)

def sort? (t : LabelTable) (label : String) : Option SortName := (t.get? label).map (·.sort)

def hasAttribute (t : LabelTable) (label key : String) : Bool :=
  (t.get? label).any (·.attributes.contains key)

/-- Whether applications of the label are evaluated. -/
def isFunction (t : LabelTable) (label : String) : Bool := t.hasAttribute label "function"

/-- Whether rules for the label apply anywhere in a term. -/
def isAnywhere (t : LabelTable) (label : String) : Bool := t.hasAttribute label "anywhere"

/-- The name of the built-in operation that the label stands for. -/
def hook? (t : LabelTable) (label : String) : Option String :=
  (t.get? label).bind (·.attributes.get? "hook")

/-- Whether nested applications of the label read as one list: associative and not commutative,
or a bag. -/
def isAssociative (t : LabelTable) (label : String) : Bool :=
  (t.hasAttribute label "assoc" && !t.hasAttribute label "comm") || t.hasAttribute label "bag"

/-- The unit constant of an associative label. -/
def unit? (t : LabelTable) (label : String) : Option String :=
  (t.get? label).bind (·.attributes.get? "unit")

/-- Kind and role named by a hook such as `MAP.concat`. -/
def collectionOfHook? (hook : String) : Option (CollectionKind × CollectionRole) :=
  match hook.toList.span (· != '.') with
  | (kind, _ :: role) => do
    return (← CollectionKind.ofText? (String.ofList kind),
      ← CollectionRole.ofText? (String.ofList role))
  | _ => none

/-- The collection that the label builds. -/
def collection? (t : LabelTable) (label : String) : Option (CollectionKind × CollectionRole) :=
  (t.hook? label).bind collectionOfHook?

/-- The labels of functions. -/
def functions (t : LabelTable) : List String :=
  (t.entries.filter (·.2.attributes.contains "function")).map (·.1)

end LabelTable

end RuleCompiler
