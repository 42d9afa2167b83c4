import RuleCompiler.SortedList
import RuleCompiler.Term.Walk

/-! # Branches of a disjunction

A branch is tried against a subject only when its head allows it: labelled branches against
applications of the same label, token branches against the same token, and both against subjects
that are neither. All other branches are always tried. -/

namespace RuleCompiler.Term

abbrev Branch := Term × RuleSet

/-- Whether a branch with pattern `p` is tried against the subject. -/
def headAdmits (p subject : Term) : Bool :=
  match p.node with
  | .app (.const l) .. =>
    match subject.node with
    | .app label .. => match label with
      | .const l' => l == l'
      | .freezer _ => false
    | .token .. => false
    | _ => true
  | .token .. =>
    match subject.node with
    | .token .. => p == subject
    | .app .. => false
    | _ => true
  | _ => true

def isToken (t : Term) : Bool :=
  match t.node with
  | .token .. => true
  | _ => false

/-- The branches to try against the subject, in order. Of branches with equal tokens only the
last counts. -/
def candidateBranches (subject : Term) : List Branch → List Branch
  | [] => []
  | b :: bs =>
    let rest := candidateBranches subject bs
    if headAdmits b.1 subject && !(b.1.isToken && bs.any (·.1 == b.1)) then b :: rest else rest

/-- The branches as a disjunction files them: their positions, by what the patterns begin with. -/
structure BranchTables where
  byLabel : List (String × List Nat) := []
  /-- Of branches with equal tokens the last. -/
  byToken : List (Term × Nat) := []
  others : List Nat := []

namespace BranchTables

def labelled (x : BranchTables) (l : String) : List Nat := (SortedList.get? l x.byLabel).getD []

/-- The branch with pattern `p` filed, which stands at position `i`. -/
def file (x : BranchTables) (p : Term) (i : Nat) : BranchTables :=
  match p.node with
  | .app (.const l) .. => { x with byLabel := SortedList.put compare l (x.labelled l ++ [i]) x.byLabel }
  | .token .. => { x with byToken := SortedList.put Term.cmp p i x.byToken }
  | _ => { x with others := x.others ++ [i] }

def ofBranches (bs : List Branch) : BranchTables :=
  bs.zipIdx.foldl (fun x b => x.file b.1.1 b.2) {}

/-- The positions of the branches that may match the subject, ascending. -/
def positions (x : BranchTables) (subject : Term) : List Nat :=
  let found := match subject.node with
    | .app label .. => match label with
      | .const l => x.labelled l
      | .freezer _ => []
    | .token .. => (SortedList.get? subject x.byToken).toList
    | _ => x.byLabel.flatMap (·.2) ++ x.byToken.map (·.2)
  (found ++ x.others).foldr (SortedList.addNew compare) []

end BranchTables

/-- The branches that the tables list for the subject. They are the `candidateBranches`. -/
def listedBranches (subject : Term) (bs : List Branch) : List Branch :=
  ((BranchTables.ofBranches bs).positions subject).filterMap (bs[·]?)

/-- The don't-care variables of a computational sort among the branches, with their rules. -/
def dontCareBranches (s : SortName) (branches : List Branch) : List (Var × RuleSet) :=
  branches.filterMap fun b => match b.1.node with
    | .var v =>
      if v.isDontCare && v.sort.isComputational && v.sort == s then some (v, b.2) else none
    | _ => none

end RuleCompiler.Term
