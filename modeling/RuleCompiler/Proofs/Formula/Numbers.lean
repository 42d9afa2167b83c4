import RuleCompiler.Formula.Solve
import RuleCompiler.Proofs.Builder.Numbers

/-! # Numbers in formulas

Solving equations makes nodes and takes no number back, however it ends. -/

namespace RuleCompiler

open Build (Always Raises)
open Term (kept_true)

namespace Build
variable {α β : Type}

theorem Raises.ite {c : Prop} [Decidable c] {x y : Build α} (hx : Raises x) (hy : Raises y) :
    Raises (if c then x else y) := by
  split
  · exact hx
  · exact hy

theorem Raises.tryCatch {x : Build α} {recover : Clash → Build α} (hx : Raises x) (hr : ∀ c, Raises (recover c)) :
    Raises (MonadExcept.tryCatch x recover) := by
  intro n
  have hle := hx n
  show n ≤ (ExceptT.tryCatch x recover n).2
  rw [ExceptT.tryCatch, ExceptT.mk]
  show n ≤ (StateT.bind x _ n).2
  rw [StateT.bind]
  generalize x n = r at hle
  obtain ⟨_ | a, k⟩ := r
  · exact Nat.le_trans hle (hr _ k)
  · exact hle

end Build

/-! ### Builders -/

theorem Term.raises_sequenceFrom (ts : List Term) (frame : Option Var) : Raises (Term.sequenceFrom ts frame) := by
  refine .of_always ?_ fun n => Term.kept_sequenceFrom (kept_true 0) (Nat.zero_le n) (fun _ _ => trivial)
    fun _ _ => trivial
  refine (Always.mapM (S := fun _ _ => True) fun v _ => (Term.always_new _).mono fun _ _ => trivial).bind fun fs _ => ?_
  exact (Always.foldlM_ends SequenceParts.ends_add _ _).bind fun p _ => p.ends_build

theorem Term.raises_var (v : Var) : Raises (Term.var v) := raises_new (.var v)

theorem Matching.raises_listOf (ops : CollectionOps) (ts : List Term) : Raises (listOf ops ts) :=
  .of_always (ListParts.ends_build _) fun n => ListParts.kept_build (kept_true 0) (Nat.zero_le n)
    ⟨fun _ _ => trivial, fun _ _ => trivial, fun _ _ => trivial⟩

theorem MapParts.raises_build (p : MapParts) : Raises p.build :=
  .of_always p.ends_build fun n => kept_build (kept_true 0) (Nat.zero_le n)
    ⟨fun _ _ => trivial, fun _ _ => trivial, fun _ _ => trivial⟩

theorem SetParts.raises_build (p : SetParts) : Raises p.build :=
  .of_always p.ends_build fun n => kept_build (kept_true 0) (Nat.zero_le n) ⟨fun _ _ => trivial, fun _ _ => trivial⟩

theorem CellParts.raises_build (p : CellParts) : Raises p.build :=
  .of_always p.ends_build fun n => kept_build (kept_true 0) (Nat.zero_le n) ⟨fun _ _ => trivial, fun _ _ => trivial⟩

/-! ### Decompositions -/

namespace Decomposition

theorem raises_ofSequences (l r : Term) : Raises (ofSequences l r) := by
  unfold ofSequences
  dsimp only
  split
  · refine .ite (.pure _) ?_
    exact (Term.raises_sequenceFrom _ _).bind fun _ => (Term.raises_sequenceFrom _ _).bind fun _ => .pure _
  split
  · split
    · exact .pure _
    · exact (Term.raises_var _).bind fun _ => .pure _
    · exact (Term.raises_var _).bind fun _ => .pure _
    · exact (Term.raises_var _).bind fun _ => (Term.raises_var _).bind fun _ => .pure _
  · split
    · exact (Term.raises_var _).bind fun _ => (Term.raises_sequenceFrom _ _).bind fun _ => .pure _
    · exact .pure _
  · split
    · exact (Term.raises_sequenceFrom _ _).bind fun _ => (Term.raises_var _).bind fun _ => .pure _
    · exact .pure _

theorem raises_ofListAgainst (a b : ListParts) (l r : Term) : Raises (ofListAgainst a b l r) := by
  unfold ofListAgainst
  split
  · exact .pure _
  · exact .ite (.pure _) ((Matching.raises_listOf _ _).bind fun _ => .pure _)

theorem raises_ofLists (a b : ListParts) (l r : Term) : Raises (ofLists a b l r) := by
  unfold ofLists
  split
  · exact .pure _
  · exact raises_ofListAgainst _ _ _ _
  · exact raises_ofListAgainst _ _ _ _
  · exact .pure _

theorem raises_ofMapAgainst (a b : MapView) (l r : Term) : Raises (ofMapAgainst a b l r) := by
  unfold ofMapAgainst
  split
  · exact .pure _
  split
  · exact .pure _
  · exact (MapParts.raises_build _).bind fun _ => .pure _

theorem raises_ofMaps (a b : MapView) (l r : Term) : Raises (ofMaps a b l r) := by
  unfold ofMaps
  refine .ite (.pure _) ?_
  split
  · exact .ite (.pure _) (.pure _)
  · exact raises_ofMapAgainst _ _ _ _
  · exact raises_ofMapAgainst _ _ _ _
  · exact .pure _

theorem raises_ofSetAgainst (ops : CollectionOps) (as aBase bs : List Term) (l r : Term) :
    Raises (ofSetAgainst ops as aBase bs l r) := by
  unfold ofSetAgainst
  split
  · exact .pure _
  · exact .ite ((SetParts.raises_build _).bind fun _ => .pure _) (.pure _)

theorem raises_ofSets (ops : CollectionOps) (as aBase bs bBase : List Term) (l r : Term) :
    Raises (ofSets ops as aBase bs bBase l r) := by
  unfold ofSets
  refine .ite (.pure _) ?_
  split
  · exact .pure _
  · exact raises_ofSetAgainst _ _ _ _ _ _
  · exact raises_ofSetAgainst _ _ _ _ _ _
  · exact .pure _

theorem raises_ofCells (as bs : List Cell) (fs gs : List Var) (l r : Term) : Raises (ofCells as bs fs gs l r) := by
  unfold ofCells
  refine .ite (.pure _) ?_
  dsimp only
  have hleft (v : Var) (p : CellParts) (es : List (Term × Term)) :
      Raises (do return parts (es ++ [(← Term.var v, ← p.build)])) :=
    (Term.raises_var v).bind fun _ => p.raises_build.bind fun _ => .pure _
  have hright (v : Var) (p : CellParts) (es : List (Term × Term)) :
      Raises (do return parts (es ++ [(← p.build, ← Term.var v)])) :=
    p.raises_build.bind fun _ => (Term.raises_var v).bind fun _ => .pure _
  split
  · exact .pure _
  · exact .ite (.pure _) (hleft _ _ _)
  · exact .ite (.pure _) (hright _ _ _)
  · exact .ite (hleft _ _ _) (.ite (hright _ _ _) (.pure _))

theorem raises_ofNodes (l r : Term) : Raises (ofNodes l r) := by
  unfold ofNodes
  split <;> try exact .pure _
  · exact .ite (raises_ofLists _ _ _ _) (.pure _)
  · split
    · exact raises_ofLists _ _ _ _
    · exact .pure _
  · split
    · exact raises_ofLists _ _ _ _
    · exact .pure _
  · exact .ite (raises_ofMaps _ _ _ _) (.pure _)
  · exact .ite (raises_ofSets _ _ _ _ _ _ _) (.pure _)
  · exact raises_ofCells _ _ _ _ _ _

theorem raises_of (isCall : Term → Bool) (l r : Term) : Raises (of isCall l r) := by
  unfold of
  split
  · exact .pure _
  · exact .pure _
  dsimp only
  split
  · exact .pure _
  · exact .pure _
  · exact .ite (raises_ofSequences l r) (.ite (.pure _) (raises_ofNodes l r))

end Decomposition

/-! ### Formulas -/

theorem Lookup.raises_mapTerms {f : Term → Build Term} (hf : ∀ t, Raises (f t)) (d : Lookup) :
    Raises (d.mapTerms f) := by
  cases d with
  | mapValue | setMember | listItem =>
    exact (hf _).bind fun _ => (hf _).bind fun _ => (hf _).bind fun _ => .pure _
  | mapChoice | setChoice => exact (hf _).bind fun _ => (hf _).bind fun _ => .pure _

namespace Formula

theorem raises_apply (f : Formula) (t : Term) : Raises (f.apply t) := Term.raises_substitute _ t

theorem raises_move (f : Formula) (l r : Term) : Raises (f.move l r) := by
  unfold move
  refine .ite (.pure _) ?_
  split
  · refine (Lookup.raises_mapTerms f.raises_apply _).bind fun d => ?_
    split <;> exact .pure _
  · refine (Decomposition.raises_of _ l r).bind fun d => ?_
    split <;> exact .pure _

theorem raises_extend (f : Formula) (v : Var) (t : Term) : Raises (f.extend v t) := by
  have hextend : Raises (f.substitution.extend v t) := by
    refine Raises.bind (Term.raises_substitute _ t) fun u => ?_
    refine (Raises.mapM fun b _ => ?_).bind fun bs => .pure _
    exact (Term.raises_substitute _ b.2).bind fun _ => .pure _
  exact hextend.bind fun _ => .pure _

theorem raises_solveUpTo {bound : Formula → List Equation → Build Formula} (hbound : ∀ f es, Raises (bound f es)) :
    ∀ (n : Nat) (f : Formula) (work : List Equation), Raises (solveUpTo bound n f work)
  | _, f, [] => by
    rw [solveUpTo]
    exact .pure f
  | 0, f, e :: work => .pure f
  | n + 1, f, e :: work => by
    rw [solveUpTo]
    refine .ite (.pure f) ?_
    refine (f.raises_apply e.1).bind fun l => (f.raises_apply e.2).bind fun r => ?_
    refine (f.raises_move l r).bind fun m => ?_
    split
    · exact raises_solveUpTo hbound n _ _
    · exact (f.raises_extend _ _).bind fun g => hbound g work
    · exact .pure _

theorem raises_weightOf (f : Formula) (t : Term) : Raises (f.weightOf t) :=
  ((f.raises_apply t).bind fun _ => .pure _).tryCatch fun _ => .pure 0

theorem raises_solveBinding : ∀ (n : Nat) (f : Formula) (work : List Equation), Raises (solveBinding n f work)
  | 0, f, _ => .pure f
  | n + 1, f, work => by
    rw [solveBinding]
    refine (Raises.mapM fun e _ => ?_).bind fun weights => raises_solveUpTo (raises_solveBinding n) _ f work
    exact (f.raises_weightOf e.1).bind fun _ => (f.raises_weightOf e.2).bind fun _ => .pure _

theorem raises_addLookup (f : Formula) (d : Lookup) : Raises (f.addLookup d) := by
  unfold addLookup
  refine .ite (.pure f) ((Lookup.raises_mapTerms f.raises_apply d).bind fun d => ?_)
  split
  · exact raises_solveBinding _ _ _
  all_goals exact .pure _

theorem raises_add (f : Formula) (l r : Term) : Raises (f.add l r) := by
  unfold add
  refine .ite (.pure f) ?_
  split
  · exact f.raises_addLookup _
  · exact raises_solveBinding _ _ _

theorem raises_addEquations (f : Formula) (es : List Equation) : Raises (f.addEquations es) :=
  .foldlM (fun f e => f.raises_add e.1 e.2) es f

theorem raises_simplifyRounds : ∀ (n : Nat) (f : Formula), Raises (simplifyRounds n f)
  | 0, f => .pure f
  | n + 1, f => by
    rw [simplifyRounds]
    have hreadd : Raises f.readd :=
      (raises_addEquations _ f.equations).bind fun g => .foldlM raises_addLookup f.lookups g
    refine .ite (.pure f) (hreadd.bind fun g => .ite (.pure g) (raises_simplifyRounds n g))

theorem raises_simplify (f : Formula) : Raises f.simplify := raises_simplifyRounds _ f

end Formula

end RuleCompiler
