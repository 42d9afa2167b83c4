import RuleCompiler.Proofs.Formula.Worklist

/-! # Equations between first-order terms are never lost

Without calls nothing is kept for later between first-order terms, so a formula is its bindings. What it is in
the end says every equation that was added. -/

namespace RuleCompiler

open Making (Makes)

namespace Formula
variable {sorts : String → SortName} {w w' : World} {f g : Formula} {work : List Equation} {θ : Var → Expr}

/-- A formula that is its bindings. -/
structure IsDecided (sorts : String → SortName) (w : World) (f : Formula) : Prop where
  isFirstOrder : f.IsFirstOrder sorts w
  lookups : f.lookups = []
  functions : f.functions = []

theorem IsDecided.mono (hw : w ≤ w') (h : f.IsDecided sorts w) : f.IsDecided sorts w' :=
  ⟨h.isFirstOrder.mono hw, h.lookups, h.functions⟩

theorem IsDecided.resolved (h : f.IsDecided sorts w) : f.substitution.IsResolved sorts w := h.isFirstOrder.resolved

theorem isCall_eq_false (hf : f.functions = []) (t : Term) : f.isCall t = false := by
  unfold isCall
  rw [hf]
  cases t.constLabel? <;> rfl

/-- Equations are kept for calls only. -/
theorem IsDecided.equations (h : f.IsDecided sorts w) : f.equations = [] :=
  List.eq_nil_iff_forall_not_mem.mpr fun e he => by simpa [isCall_eq_false h.functions] using h.isFirstOrder.calls e he

theorem isDecided_truth (sorts : String → SortName) (w : World) : truth.IsDecided sorts w :=
  ⟨isFirstOrder_truth sorts w [], rfl, rfl⟩

/-- The formula is decided, and says what `f` and the equations say: all of it, and no more of valuations of
the right sorts. -/
structure Conjoins (sorts : String → SortName) (w : World) (f : Formula) (work : List Equation)
    (g : Formula) : Prop where
  decided : g.IsDecided sorts w
  holds : ∀ θ, g.Holds θ → f.Holds θ ∧ HoldAll θ work
  complete : ∀ θ, Expr.IsSorted θ → f.Holds θ → HoldAll θ work → g.Holds θ

theorem Conjoins.refl (hf : f.IsDecided sorts w) : Conjoins sorts w f [] f :=
  ⟨hf, fun _ hθ => ⟨hθ, List.forall_mem_nil _⟩, fun _ _ hθ _ => hθ⟩

theorem Adds.conjoins (hf : f.IsDecided sorts w) (h : Adds sorts w' f work g) : Conjoins sorts w' f work g where
  decided := ⟨h.isFirstOrder, List.subset_nil.mp (hf.lookups ▸ h.lookups), h.functions.trans hf.functions⟩
  holds := h.holds
  complete := h.complete

theorem makes_add {l r : Term} (hf : f.IsDecided sorts w) (hl : l.Plain sorts w) (hr : r.Plain sorts w) :
    Makes w (f.add l r) fun w' g => Conjoins sorts w' f [(l, r)] g :=
  Making.mono (hf.isFirstOrder.makes_add hl hr) fun _ _ _ hg => hg.1.conjoins hf

/-- Nothing is pending in a decided formula. -/
theorem simplify_eq (hf : f.IsDecided sorts w) : f.simplify = pure f := by
  have hreadd : f.readd = pure f := by
    have hes := hf.equations
    have hds := hf.lookups
    obtain ⟨σ, es, ds, isFalse, fs⟩ := f
    cases hes
    cases hds
    rfl
  have hrounds (n : Nat) : simplifyRounds n f = pure f := by
    induction n with
    | zero => rfl
    | succ n ih =>
      rw [simplifyRounds]
      split
      · rfl
      · rw [hreadd, pure_bind]
        split
        · rfl
        · exact ih
  exact hrounds _

/-! ### Sequences of steps -/

/-- What may be done to a formula. -/
inductive Step where
  | add (l r : Term)
  | simplify

namespace Step

def run (f : Formula) : Step → Build Formula
  | add l r => f.add l r
  | simplify => f.simplify

/-- The equation that the step adds. -/
def equations : Step → List Equation
  | add l r => [(l, r)]
  | simplify => []

def terms (s : Step) : List Term := s.equations.flatMap fun e => [e.1, e.2]

end Step

/-- What the steps make of a formula that states nothing. -/
def after (steps : List Step) : Build Formula := steps.foldlM Step.run truth

theorem Conjoins.trans {h : Formula} {work' : List Equation} (hg : Conjoins sorts w f work g)
    (hh : Conjoins sorts w' g work' h) : Conjoins sorts w' f (work ++ work') h := by
  refine ⟨hh.decided, fun θ hθ => ?_, fun θ hsorted hθ hall => ?_⟩
  · obtain ⟨hgθ, hwork'⟩ := hh.holds θ hθ
    obtain ⟨hfθ, hwork⟩ := hg.holds θ hgθ
    exact ⟨hfθ, List.forall_mem_append.mpr ⟨hwork, hwork'⟩⟩
  · obtain ⟨hwork, hwork'⟩ := List.forall_mem_append.mp hall
    exact hh.complete θ hsorted (hg.complete θ hsorted hθ hwork) hwork'

theorem makes_step (hf : f.IsDecided sorts w) {s : Step} (hs : ArePlain sorts w s.equations) :
    Makes w (s.run f) fun w' g => Conjoins sorts w' f s.equations g := by
  cases s with
  | add l r =>
    obtain ⟨hl, hr⟩ := hs (l, r) (List.mem_singleton_self _)
    exact makes_add hf hl hr
  | simplify =>
    rw [Step.run, simplify_eq hf]
    exact Making.pure (.refl hf)

/-- In the end the formula says every equation that was added. -/
theorem makes_run {steps : List Step} (hf : f.IsDecided sorts w)
    (hsteps : ArePlain sorts w (steps.flatMap Step.equations)) :
    Makes w (steps.foldlM Step.run f) fun w' g => Conjoins sorts w' f (steps.flatMap Step.equations) g := by
  induction steps generalizing w f with
  | nil => exact Making.pure (.refl hf)
  | cons s steps ih =>
    rw [List.flatMap_cons] at hsteps ⊢
    obtain ⟨hs, hsteps⟩ := List.forall_mem_append.mp hsteps
    rw [List.foldlM_cons]
    refine Making.bind (makes_step hf hs) fun w₁ g hw₁ hg => ?_
    exact Making.mono (ih hg.decided (ArePlain.mono hw₁ hsteps)) fun w₂ h _ hh => hg.trans hh

end Formula

end RuleCompiler
