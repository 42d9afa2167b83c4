import RuleCompiler.Builtin
import RuleCompiler.Diagnostic.Basic
import RuleCompiler.LabelTable
import RuleCompiler.Source.Basic
import RuleCompiler.Term.Basic

/-! # The cell table

The cells that the configurations of a definition declare. A configuration with a rewrite in it
is reported and declares nothing. -/

namespace RuleCompiler

structure CellInfo where
  multiplicity : Multiplicity
  /-- The sort of the content. -/
  sort : SortName
  /-- The cell around it; none for the top cell. -/
  parent : Option String
deriving DecidableEq, Inhabited

structure CellTable where
  entries : List (String × CellInfo) := []
deriving Inhabited

namespace CellTable

def get? (t : CellTable) (label : String) : Option CellInfo :=
  (t.entries.find? (·.1 == label)).map (·.2)

def isCell (t : CellTable) (label : String) : Bool := (t.get? label).isSome

def multiplicity (t : CellTable) (label : String) : Multiplicity :=
  ((t.get? label).map (·.multiplicity)).getD .one

def size (t : CellTable) : Nat := t.entries.length

/-- Enter a cell in place of an earlier one of the label. -/
def declare (t : CellTable) (label : String) (info : CellInfo) : CellTable :=
  if t.isCell label then
    ⟨t.entries.map fun e => if e.1 == label then (label, info) else e⟩
  else ⟨t.entries ++ [(label, info)]⟩

/-- The cell that an application with the attribute `cell` declares. -/
def infoOf (parent : Option String) (a : Attributes) : CellInfo where
  multiplicity := ((a.get? "multiplicity").bind Multiplicity.ofText?).getD .one
  sort := a.sort?.getD .k
  parent

/-- Enter the cells of a configuration that stands in the cell `parent`. -/
def declareAll : SourceTerm → (parent : Option String) → CellTable → CellTable :=
  SourceTerm.fold fun t below parent table =>
    match t with
    | .apply label _ a =>
      if a.contains "cell" then
        below.foldl (fun table enter => enter (some label) table)
          (table.declare label (infoOf parent a))
      else below.foldl (fun table enter => enter parent table) table
    | _ => below.foldl (fun table enter => enter parent table) table

/-- The report of a rewrite in a configuration. -/
def rewriteReport (c : Configuration) (rewrite : SourceTerm) : Diagnostic :=
  (Diagnostic.error .rewriteInConfiguration "Rewrites are not allowed in configurations.").at?
    (rewrite.location? <|> c.attributes.location) "rewrite in configuration"

/-- The cells of all configurations, and what is wrong with some of these. -/
def ofConfigurations (cs : List Configuration) : CellTable × List Diagnostic :=
  cs.foldl (fun (table, reports) c =>
    match c.body.firstRewrite? with
    | some rewrite => (table, reports ++ [rewriteReport c rewrite])
    | none => (declareAll c.body none table, reports)) ({}, [])

end CellTable

/-! ## Signatures

The labels and cells of a definition, by which source terms are read. -/

structure Signature where
  labels : LabelTable := {}
  cells : CellTable := {}
deriving Inhabited

namespace Signature

/-- The operation built into a label: the one that its production names, or else the one that the
label itself means. -/
def builtin? (sig : Signature) (label : String) : Option Builtin :=
  ((sig.labels.hook? label).bind Builtin.ofHook?) <|> Builtin.ofLabel? label

/-- The sort of applications: as declared, then as built in, then as the term itself says. -/
def sortOf (sig : Signature) (label : String) (a : Attributes) : SortName :=
  (sig.labels.sort? label <|> ((Builtin.ofLabel? label).bind Builtin.resultSort?) <|>
    a.sort?).getD .kItem

end Signature

end RuleCompiler
