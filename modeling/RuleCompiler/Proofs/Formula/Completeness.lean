import RuleCompiler.Formula.Solve
import RuleCompiler.Proofs.Formula.Decompose
import RuleCompiler.Proofs.Substitution

/-! # Unification loses no solution

Adding an equation between rigid terms keeps every valuation that solves it: no step finds the formula
false, and what is bound or kept for later holds under the valuation. The invariant is that of one step,
and a binding keeps it because it is put into terms that it does not change the values of. -/

namespace RuleCompiler

open Build (Always)
open Matching (Names Reads Refines Sound)

/-- A computation that always ends well needs no recovery. -/
theorem Build.Always.tryCatch {α : Type} {x : Build α} {Q : α → Prop} (hx : Always x Q)
    (recover : Clash → Build α) : Always (MonadExcept.tryCatch x recover) Q := by
  intro n
  obtain ⟨a, n', hrun, hQ⟩ := hx n
  exact ⟨a, n', tryCatch_eq hrun recover, hQ⟩

/-- Where the comparison tells keys apart, an entry is the one that is put in or was there before. -/
theorem SortedList.of_mem_put {α β : Type} {cmp : α → α → Ordering} (heq : ∀ {a b}, cmp a b = .eq → a = b)
    {key : α} {value : β} {e : α × β} {l : List (α × β)} (h : e ∈ put cmp key value l) :
    e = (key, value) ∨ e ∈ l := by
  induction l with
  | nil => exact .inl (List.mem_singleton.mp h)
  | cons f l ih =>
    rw [put] at h
    cases hc : cmp key f.1 with
    | lt =>
      rw [hc] at h
      exact List.mem_cons.mp h
    | eq =>
      rw [hc] at h
      rw [← heq hc] at h
      rcases List.mem_cons.mp h with h | h
      · exact .inl h
      · exact .inr (List.mem_cons_of_mem f h)
    | gt =>
      rw [hc] at h
      rcases List.mem_cons.mp h with rfl | h
      · exact .inr List.mem_cons_self
      · exact (ih h).imp_right (List.mem_cons_of_mem f)

namespace Formula
variable {θ : Substitution} {f : Formula} {l r t u : Term} {v : Var}

/-- The formula is not found false, and the valuation solves all that it says. -/
structure Admits (θ : Substitution) (f : Formula) : Prop where
  isFalse : f.isFalse = false
  bindings : ∀ b ∈ f.substitution.bindings, Sound θ b.1 b.2
  equations : ∀ e ∈ f.equations, Joint θ e.1 e.2
  lookups : f.lookups = []

/-- Equations that the valuation solves. -/
def Solves (θ : Substitution) (work : List Equation) : Prop := ∀ e ∈ work, Joint θ e.1 e.2

/-! ### Bindings -/

theorem always_apply (hf : f.Admits θ) (ht : t.IsRigid) : Always (f.apply t) (Refines θ t) :=
  Matching.always_refines (fun _ _ hu => hf.bindings _ (Substitution.mem_bindings hu)) ht

theorem Sound.of_refines (h : Sound θ v t) (htu : Refines θ t u) : Sound θ v u :=
  ⟨htu.rigid, SortName.subsortOf_trans htu.sort h.sort, fun hs => htu.reads (h.reads hs)⟩

theorem Joint.of_refines {a b : Term} (h : Joint θ l r) (hl : Refines θ l a) (hr : Refines θ r b) : Joint θ a b :=
  ⟨hl.rigid, hr.rigid, h.common.imp fun _ h => ⟨hl.reads h.1, hr.reads h.2⟩⟩

/-- A sound binding is put into the other bindings. -/
theorem always_extend (hf : f.Admits θ) (h : Sound θ v t) : Always (f.extend v t) (Admits θ) := by
  have hsubstitution : Always (f.substitution.extend v t)
      fun σ => ∀ b ∈ σ.bindings, Sound θ b.1 b.2 := by
    unfold Substitution.extend
    refine (always_apply hf h.rigid).bind fun u hu => ?_
    have hu := Sound.of_refines h hu
    dsimp only
    have hsingle : ∀ w a, (if w = v then some u else none) = some a → Sound θ w a := by
      intro w a ha
      split at ha
      · rename_i hw
        cases ha
        exact hw ▸ hu
      · cases ha
    refine (Always.mapM (S := fun b b' => Sound θ b'.1 b'.2) fun b hb => ?_).bind fun bs hbs => ?_
    · have hb := hf.bindings b hb
      exact (Matching.always_refines hsingle hb.rigid).bind fun a ha => .pure (Sound.of_refines hb ha)
    · refine .pure fun b hb => ?_
      rcases SortedList.of_mem_put Var.compareKeys_eq_iff.mp hb with rfl | hb
      · exact hu
      · obtain ⟨_, -, h⟩ := PairedLists.exists_mem hbs.flip hb
        exact h
  exact hsubstitution.bind fun σ hσ => .pure ⟨hf.isFalse, hσ, hf.equations, hf.lookups⟩

/-! ### Steps -/

theorem ofEquation?_eq_none (hl : l.IsRigid) (hr : r.IsRigid) : Lookup.ofEquation? l r = none := by
  have hnone {t u : Term} (ht : t.IsRigid) : Lookup.ofCall? t u = none := by
    have hlookup := ht.node.2.1
    rw [← Term.isSome_ofCall? t u] at hlookup
    simpa using hlookup
  rw [Lookup.ofEquation?, hnone hl, hnone hr]
  rfl

theorem admits_keepEquation (hf : f.Admits θ) (h : Joint θ l r) : (f.keepEquation l r).Admits θ := by
  unfold keepEquation
  split
  · exact hf
  · exact ⟨hf.isFalse, hf.bindings, List.forall_mem_append.mpr ⟨hf.equations, List.forall_mem_singleton.mpr h⟩,
      hf.lookups⟩

/-- What the move for an equation that the valuation solves may be. -/
def Move.Keeps (θ : Substitution) : Move → Prop
  | .advance f more => f.Admits θ ∧ Solves θ more
  | .bind v value => Sound θ v value
  | .stop _ => False

theorem always_move (hf : f.Admits θ) (h : Joint θ l r) : Always (f.move l r) (Move.Keeps θ) := by
  unfold move
  split
  · exact .pure ⟨hf, List.forall_mem_nil _⟩
  · rename_i hne
    rw [ofEquation?_eq_none h.left h.right]
    refine (Decomposition.always_of h hne f.isCall).bind fun d hd => ?_
    cases d with
    | holds => exact .pure ⟨hf, List.forall_mem_nil _⟩
    | parts es => exact .pure ⟨hf, fun e he => hd e (List.mem_reverse.mp he)⟩
    | binding v value => exact .pure hd
    | undecided a b => exact .pure ⟨admits_keepEquation hf hd, List.forall_mem_nil _⟩
    | fails => exact hd.elim

/-! ### Runs -/

theorem always_solveUpTo {bound : Formula → List Equation → Build Formula}
    (hbound : ∀ {f work}, f.Admits θ → Solves θ work → Always (bound f work) (Admits θ)) (n : Nat) :
    ∀ {f work}, f.Admits θ → Solves θ work → Always (solveUpTo bound n f work) (Admits θ) := by
  induction n with
  | zero =>
    intro f work hf _
    cases work <;> exact .pure hf
  | succ n ih =>
    intro f work hf hwork
    cases work with
    | nil => exact .pure hf
    | cons e work =>
      obtain ⟨he, hwork⟩ := List.forall_mem_cons.mp hwork
      unfold solveUpTo
      rw [if_neg (by simp [hf.isFalse])]
      refine (always_apply hf he.left).bind fun a ha => ?_
      refine (always_apply hf he.right).bind fun b hb => ?_
      refine (always_move hf (Joint.of_refines he ha hb)).bind fun move hmove => ?_
      cases move with
      | advance g more => exact ih hmove.1 (List.forall_mem_append.mpr ⟨hmove.2, hwork⟩)
      | bind v value => exact (always_extend hf hmove).bind fun g hg => hbound hg hwork
      | stop => exact hmove.elim

theorem always_weightOf (hf : f.Admits θ) (ht : t.IsRigid) : Always (f.weightOf t) fun _ => True :=
  ((always_apply hf ht).bind fun _ _ => .pure trivial).tryCatch _

theorem always_solveBinding (n : Nat) :
    ∀ {f work}, f.Admits θ → Solves θ work → Always (solveBinding n f work) (Admits θ) := by
  induction n with
  | zero => exact fun hf _ => .pure hf
  | succ n ih =>
    intro f work hf hwork
    unfold solveBinding
    refine (Always.mapM (S := fun _ _ => True) fun e he => ?_).bind fun _ _ =>
      always_solveUpTo ih _ hf hwork
    exact (always_weightOf hf (hwork e he).left).bind fun _ _ =>
      (always_weightOf hf (hwork e he).right).bind fun _ _ => .pure trivial

/-- Adding an equation between rigid terms keeps every valuation that solves it. -/
theorem always_add (hf : f.Admits θ) (h : Joint θ l r) : Always (f.add l r) (Admits θ) := by
  unfold add
  rw [if_neg (by simp [hf.isFalse]), ofEquation?_eq_none h.left h.right]
  exact always_solveBinding _ hf (List.forall_mem_singleton.mpr h)

theorem always_addEquations {es : List Equation} (hf : f.Admits θ) (hes : Solves θ es) :
    Always (f.addEquations es) (Admits θ) := by
  induction es generalizing f with
  | nil => exact .pure hf
  | cons e es ih =>
    obtain ⟨he, hes⟩ := List.forall_mem_cons.mp hes
    rw [addEquations, List.foldlM_cons]
    exact (always_add hf he).bind fun g hg => ih hg hes

/-- Adding everything pending again keeps the valuation too. -/
theorem always_simplify (hf : f.Admits θ) : Always f.simplify (Admits θ) := by
  have hrounds : ∀ (n : Nat) {f : Formula}, f.Admits θ → Always (simplifyRounds n f) (Admits θ) := by
    intro n
    induction n with
    | zero => exact fun hf => .pure hf
    | succ n ih =>
      intro f hf
      rw [simplifyRounds, if_neg (by simp [hf.isFalse])]
      have hreadd : Always f.readd (Admits θ) := by
        have hcleared : Admits θ { f with equations := [], lookups := [] } :=
          ⟨hf.isFalse, hf.bindings, List.forall_mem_nil _, rfl⟩
        refine (always_addEquations hcleared hf.equations).bind fun g hg => ?_
        rw [hf.lookups]
        exact .pure hg
      refine hreadd.bind fun g hg => ?_
      split
      · exact .pure hg
      · exact ih hg
  exact hrounds _ hf

theorem admits_truth (functions : List String) : (truth functions).Admits θ :=
  ⟨rfl, List.forall_mem_nil _, List.forall_mem_nil _, rfl⟩

/-- Unification keeps every valuation that makes two rigid terms the same. -/
theorem always_unify (h : Joint θ l r) : Always (unify l r) (Admits θ) := always_add (admits_truth []) h

end Formula

end RuleCompiler
