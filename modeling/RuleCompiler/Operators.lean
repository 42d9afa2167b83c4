import RuleCompiler.LabelTable
import RuleCompiler.Term.Walk

/-! # Associative operators

An application of an associative label stands for a list of operands: nested lists of the same
operator are spliced in and its unit disappears. `Term.flatten` puts lists in place of the
applications and `Term.unflatten` nests them again, to the right. -/

namespace RuleCompiler

/-- The collection that applications of an associative label build. A label without a unit of
its own takes its own constant for one. -/
def LabelTable.operator? (labels : LabelTable) (label : String) (s : SortName) :
    Option CollectionOps :=
  if labels.isAssociative label then some ⟨s, label, (labels.unit? label).getD label, none⟩
  else none

namespace Term

/-- The list of the operands of one application of an associative label. Other terms stay. -/
def flattenNode (labels : LabelTable) (t : Term) : Build Term := do
  match t.node with
  | .app (.const l) args s =>
    match labels.operator? l s with
    | some ops => (← args.foldlM ListParts.concat { ops }).build
    | none => return t
  | _ => return t

/-- Applications of associative labels replaced by lists. -/
def flatten (labels : LabelTable) : Term → Build Term := replaceUp (flattenNode labels)

/-- Operands under a binary operator, nested to the right. -/
def nestRight (ops : CollectionOps) : List Term → Build Term
  | [] => return ops.unitTerm
  | [t] => return t
  | t :: ts => do app (.const ops.concat) [t, ← nestRight ops ts] ops.sort

/-- The nested applications that one list of a user operator stands for. Other terms stay. -/
def unflattenNode (t : Term) : Build Term :=
  match t.node with
  | .list ops left base right =>
    if ops.isOperator then nestRight ops (left ++ (base ++ right)) else return t
  | _ => return t

/-- Lists of user operators replaced by nested applications. -/
def unflatten : Term → Build Term := replaceUp unflattenNode

end Term

end RuleCompiler
