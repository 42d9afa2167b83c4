import Mathlib.Data.Finset.Card
import RuleCompiler.Proofs.Formula.Bindings

/-! # The worklist of first-order equations

No bound term of a first-order formula mentions a bound variable, and what is pending in it are equations of
calls. A step that replaces an equation keeps what it says, and a step that binds a variable says it of the
earlier bindings too. The work ends before its fuel: a step without a binding makes it lighter, a binding
leaves one free variable fewer. -/

namespace RuleCompiler

open Making (Makes)

namespace Build
variable {α : Type} {w : World} {x : Build α} {Q : World → α → Prop}

/-- A computation that ends well needs no recovery. -/
theorem Makes.tryCatch (hx : Makes w x Q) (recover : Clash → Build α) :
    Makes w (MonadExcept.tryCatch x recover) Q := by
  obtain ⟨a, w', hrun, hQ⟩ := hx
  exact ⟨a, w', tryCatch_eq hrun recover, hQ⟩

/-- The world that comes after is the one that the computation leaves. -/
theorem Makes.run (hx : Makes w x Q) : Makes w x fun w' a => x w.next = (.ok a, w'.next) ∧ Q w' a := by
  obtain ⟨a, w', hrun, hw, hc, hQ⟩ := hx
  exact ⟨a, w', hrun, hw, hc, hrun, hQ⟩

end Build

namespace Formula
variable {sorts : String → SortName} {w w' : World} {f g h : Formula} {work work' : List Equation} {t : Term}
  {v x : Var} {θ : Var → Expr}

/-! ### What a formula says -/

/-- The valuation makes everything true that the formula says. -/
structure Holds (θ : Var → Expr) (f : Formula) : Prop where
  isFalse : f.isFalse = false
  substitution : f.substitution.Holds θ
  equations : ∀ e ∈ f.equations, e.1.expr.subst θ = e.2.expr.subst θ

/-- Equations between plain terms. -/
def ArePlain (sorts : String → SortName) (w : World) (work : List Equation) : Prop :=
  ∀ e ∈ work, e.1.Plain sorts w ∧ e.2.Plain sorts w

theorem ArePlain.mono (hw : w ≤ w') (h : ArePlain sorts w work) : ArePlain sorts w' work :=
  fun e he => ⟨(h e he).1.mono hw, (h e he).2.mono hw⟩

/-- The valuation solves the equations. -/
def HoldAll (θ : Var → Expr) (work : List Equation) : Prop :=
  ∀ e ∈ work, e.1.expr.subst θ = e.2.expr.subst θ

theorem not_holds_of_isFalse (hfalse : f.isFalse) : ¬f.Holds θ := by
  intro hθ
  rw [hθ.isFalse] at hfalse
  cases hfalse

/-- A formula of plain terms, in which nothing is pending but equations of calls, and lookups. -/
structure IsFirstOrder (sorts : String → SortName) (w : World) (f : Formula) : Prop where
  resolved : f.substitution.IsResolved sorts w
  named : ∀ b ∈ f.substitution.bindings, b.1.isDontCare = false
  equations : ArePlain sorts w f.equations
  calls : ∀ e ∈ f.equations, f.isCall e.1 ∨ f.isCall e.2
  lookups : ∀ d ∈ f.lookups, ∀ t ∈ d.terms, t.Plain sorts w

theorem IsFirstOrder.mono (hw : w ≤ w') (h : f.IsFirstOrder sorts w) : f.IsFirstOrder sorts w' :=
  ⟨h.resolved.mono hw, h.named, h.equations.mono hw, h.calls, fun d hd t ht => (h.lookups d hd t ht).mono hw⟩

theorem isFirstOrder_truth (sorts : String → SortName) (w : World) (functions : List String) :
    (truth functions).IsFirstOrder sorts w :=
  ⟨⟨List.nodup_nil, List.forall_mem_nil _, List.forall_mem_nil _, List.forall_mem_nil _⟩, List.forall_mem_nil _,
    List.forall_mem_nil _, List.forall_mem_nil _, List.forall_mem_nil _⟩

theorem isFirstOrder_falsify (hf : f.IsFirstOrder sorts w) : f.falsify.IsFirstOrder sorts w :=
  ⟨hf.resolved, hf.named, List.forall_mem_nil _, List.forall_mem_nil _, List.forall_mem_nil _⟩

/-! ### What is kept -/

/-- The equation, in either direction. -/
def IsSame (d e : Equation) : Prop := d == e ∨ d == e.swap

/-- An equation is kept unless it is already. -/
theorem keepEquation_cases (f : Formula) (l r : Term) :
    (f.keepEquation l r = f ∧ ∃ e ∈ f.equations, IsSame e (l, r)) ∨
      f.keepEquation l r = { f with equations := f.equations ++ [(l, r)] } ∧
        ∀ e ∈ f.equations, ¬IsSame e (l, r) := by
  unfold keepEquation
  split
  · rename_i h
    obtain ⟨e, he, h⟩ := List.any_eq_true.mp h
    exact .inl ⟨rfl, e, he, by simpa [IsSame] using h⟩
  · rename_i h
    refine .inr ⟨rfl, fun e he hsame => h (List.any_eq_true.mpr ⟨e, he, ?_⟩)⟩
    simpa [IsSame] using hsame

/-- The same equation has the same solutions. -/
theorem IsSame.solved {d e : Equation} (h : IsSame d e) :
    d.1.expr.subst θ = d.2.expr.subst θ ↔ e.1.expr.subst θ = e.2.expr.subst θ := by
  rcases h with h | h <;> obtain ⟨h₁, h₂⟩ := (Bool.and_eq_true _ _).mp h
  · rw [Term.beq_iff_expr.mp h₁, Term.beq_iff_expr.mp h₂]
  · rw [Term.beq_iff_expr.mp h₁, Term.beq_iff_expr.mp h₂]
    exact eq_comm

theorem holds_keepEquation {l r : Term} :
    (f.keepEquation l r).Holds θ ↔ f.Holds θ ∧ l.expr.subst θ = r.expr.subst θ := by
  rcases f.keepEquation_cases l r with ⟨h, e, he, hsame⟩ | ⟨h, -⟩ <;> rw [h]
  · exact (and_iff_left_of_imp fun hθ => hsame.solved.mp (hθ.equations e he)).symm
  · refine ⟨fun hθ => ?_, fun ⟨hθ, heq⟩ => ⟨hθ.isFalse, hθ.substitution, ?_⟩⟩
    · obtain ⟨hes, heq⟩ := List.forall_mem_append.mp hθ.equations
      exact ⟨⟨hθ.isFalse, hθ.substitution, hes⟩, heq (l, r) (List.mem_singleton_self _)⟩
    · refine List.forall_mem_append.mpr ⟨hθ.equations, fun e he => ?_⟩
      rw [List.mem_singleton.mp he]
      exact heq

/-- What is pending cannot be taken further: equations are stuck, bindings are put into everything, and
nothing is said twice. -/
structure IsNormal (f : Formula) : Prop where
  stuck : ∀ e ∈ f.equations, IsStuck f.isCall e.1 e.2
  free : ∀ e ∈ f.equations, ∀ x, x ∈ e.1.expr.vars ∨ x ∈ e.2.expr.vars → f.substitution.get? x = none
  distinct : f.equations.Pairwise fun d e => ¬IsSame d e
  lookupFree : ∀ d ∈ f.lookups, ∀ t ∈ d.terms, ∀ x ∈ t.expr.vars, f.substitution.get? x = none
  lookupDistinct : f.lookups.Pairwise fun c d => ¬c == d

/-- Where more is conjoined, the formula is found to be false, or there are more bindings, or the bindings stay
what they are and nothing is kept but what cannot be taken further. -/
structure Grows (f g : Formula) : Prop where
  isFalse : f.isFalse → g.isFalse
  change : g.isFalse ∨ f.substitution.size < g.substitution.size ∨
    g.substitution = f.substitution ∧ (f.IsNormal → g.IsNormal)

theorem Grows.refl (f : Formula) : Grows f f := ⟨id, .inr (.inr ⟨rfl, id⟩)⟩

theorem Grows.trans (hfg : Grows f g) (hgh : Grows g h) : Grows f h := by
  refine ⟨fun hf => hgh.isFalse (hfg.isFalse hf), ?_⟩
  rcases hfg.change with hfalse | hlt | ⟨heq, hnormal⟩
  · exact .inl (hgh.isFalse hfalse)
  · refine hgh.change.imp_right fun hchange => .inl ?_
    rcases hchange with hlt' | ⟨heq, -⟩
    · exact Nat.lt_trans hlt hlt'
    · rwa [heq]
  · rw [← heq]
    exact hgh.change.imp_right (Or.imp_right (And.imp_right fun hnormal' hf => hnormal' (hnormal hf)))

/-- The variables of the equations. -/
def Occurs (work : List Equation) (x : Var) : Prop := ∃ e ∈ work, x ∈ e.1.expr.vars ∨ x ∈ e.2.expr.vars

/-- The variables that are bound or that equations or bound terms mention. -/
def Mentions (f : Formula) (x : Var) : Prop :=
  f.substitution.get? x ≠ none ∨ f.substitution.Mentions x ∨ Occurs f.equations x

/-- The formula is of first order, and what comes of `f` where the equations are conjoined. -/
structure Continues (sorts : String → SortName) (w : World) (f : Formula) (work : List Equation)
    (g : Formula) : Prop where
  isFirstOrder : g.IsFirstOrder sorts w
  functions : g.functions = f.functions
  grows : Grows f g
  mentions : ∀ x, g.Mentions x → f.Mentions x ∨ Occurs work x

theorem Continues.refl (hf : f.IsFirstOrder sorts w) : Continues sorts w f work f := ⟨hf, rfl, .refl f, fun _ => .inl⟩

theorem Continues.trans (hg : Continues sorts w f work g) (hh : Continues sorts w' g work' h) :
    Continues sorts w' f (work ++ work') h where
  isFirstOrder := hh.isFirstOrder
  functions := hh.functions.trans hg.functions
  grows := hg.grows.trans hh.grows
  mentions x hx := by
    unfold Occurs
    simp only [List.mem_append, or_and_right, exists_or]
    rcases hh.mentions x hx with hx | hx
    · exact (hg.mentions x hx).imp_right .inl
    · exact .inr (.inr hx)

/-- The formula says what `f` and the equations say: all of it, and no more of valuations of the right sorts. -/
structure Adds (sorts : String → SortName) (w : World) (f : Formula) (work : List Equation)
    (g : Formula) : Prop extends Continues sorts w f work g where
  lookups : g.lookups ⊆ f.lookups
  holds : ∀ θ, g.Holds θ → f.Holds θ ∧ HoldAll θ work
  complete : ∀ θ, Expr.IsSorted θ → f.Holds θ → HoldAll θ work → g.Holds θ

theorem Adds.refl (hf : f.IsFirstOrder sorts w) : Adds sorts w f [] f where
  toContinues := .refl hf
  lookups := List.Subset.refl _
  holds _ hθ := ⟨hθ, List.forall_mem_nil _⟩
  complete _ _ hθ _ := hθ

/-- A false formula stays what it is. -/
theorem adds_of_isFalse (hf : f.IsFirstOrder sorts w) (hfalse : f.isFalse) : Adds sorts w f work f where
  toContinues := .refl hf
  lookups := List.Subset.refl _
  holds _ hθ := (not_holds_of_isFalse hfalse hθ).elim
  complete _ _ hθ _ := hθ

/-- The formula may be found false where the equations have no solution. -/
theorem adds_falsify (hf : f.IsFirstOrder sorts w)
    (hnone : ∀ θ, Expr.IsSorted θ → f.Holds θ → ¬HoldAll θ work) : Adds sorts w f work f.falsify where
  isFirstOrder := isFirstOrder_falsify hf
  functions := rfl
  lookups := List.nil_subset _
  grows := ⟨fun _ => rfl, .inl rfl⟩
  mentions _ hx := .inl (hx.imp_right (Or.imp_right fun ⟨_, he, _⟩ => absurd he List.not_mem_nil))
  holds _ hθ := (not_holds_of_isFalse rfl hθ).elim
  complete θ hsorted hθ hall := (hnone θ hsorted hθ hall).elim

/-! ### Measures -/

/-- What the bindings leave of a term. -/
def instanceOf (f : Formula) (t : Term) : Expr := t.expr.subst (Expr.ofValues f.substitution.get?)

/-- The size of the equations under the bindings. -/
def load (f : Formula) (work : List Equation) : Nat :=
  (work.map fun e => (f.instanceOf e.1).size + (f.instanceOf e.2).size).sum

/-- The free variables of the work and of the bindings are among `S`. -/
def IsOver (S : Finset Var) (f : Formula) (work : List Equation) : Prop :=
  ∀ x, f.substitution.get? x = none → Occurs work x ∨ f.substitution.Mentions x → x ∈ S

theorem IsFirstOrder.makes_apply (hf : f.IsFirstOrder sorts w) (ht : t.Plain sorts w) :
    Makes w (f.apply t) fun w' u => u.Plain sorts w' ∧ u.expr = f.instanceOf t :=
  hf.resolved.makes_apply ht

theorem makes_weightOf (hf : f.IsFirstOrder sorts w) (ht : t.Plain sorts w) :
    Makes w (f.weightOf t) fun _ n => n = (f.instanceOf t).size := by
  refine Build.Makes.tryCatch ?_ _
  refine Making.bind (hf.makes_apply ht) fun w' u _ ⟨hu, hexpr⟩ => Making.pure ?_
  rw [hu.weight_eq, hexpr]

theorem load_append (f : Formula) (es work : List Equation) : f.load (es ++ work) = f.load es + f.load work := by
  rw [load, List.map_append, List.sum_append]
  rfl

/-! ### One equation -/

/-- The move for an equation under the bindings. -/
def nextMove (f : Formula) (e : Equation) : Build Move := do f.move (← f.apply e.1) (← f.apply e.2)

section Equation
variable {S : Finset Var} {e : Equation} {a b c d u : Term} {es : List Equation}

/-- The sides of an equation under the bindings. -/
structure AreSides (sorts : String → SortName) (w : World) (f : Formula) (e : Equation) (a b : Term) : Prop where
  left : a.Plain sorts w
  right : b.Plain sorts w
  leftExpr : a.expr = f.instanceOf e.1
  rightExpr : b.expr = f.instanceOf e.2

/-- The sides of the equation mention free variables only, so what comes of them counts as it is written. -/
theorem makes_nextMove (hf : f.IsFirstOrder sorts w) (he : e.1.Plain sorts w ∧ e.2.Plain sorts w) :
    Makes w (f.nextMove e) fun w' m => ∃ a b, AreSides sorts w' f e a b ∧ f.move a b = pure m ∧
      MovesTo sorts w' f a b m := by
  refine Making.bind (hf.makes_apply he.1) fun w₁ a hw₁ ⟨ha, hexpr⟩ => ?_
  refine Making.bind ((hf.mono hw₁).makes_apply (he.2.mono hw₁)) fun w₂ b hw₂ ⟨hb, hexpr'⟩ => ?_
  obtain ⟨m, hm, hmoves⟩ := move_plain f (ha.mono hw₂) hb
  rw [hm]
  exact Making.pure ⟨a, b, ⟨ha.mono hw₂, hb, hexpr, hexpr'⟩, hm, hmoves⟩

/-- A variable of a side is free, and it is one of the equation or of the bindings. -/
theorem AreSides.of_mem_vars (hf : f.IsFirstOrder sorts w) (h : AreSides sorts w f e a b)
    (hx : x ∈ a.expr.vars ∨ x ∈ b.expr.vars) :
    f.substitution.get? x = none ∧ ((x ∈ e.1.expr.vars ∨ x ∈ e.2.expr.vars) ∨ f.substitution.Mentions x) := by
  rw [h.leftExpr, h.rightExpr] at hx
  rcases hx with hx | hx
  · obtain ⟨hfree, hx⟩ := hf.resolved.of_mem_vars hx
    exact ⟨hfree, hx.imp_left .inl⟩
  · obtain ⟨hfree, hx⟩ := hf.resolved.of_mem_vars hx
    exact ⟨hfree, hx.imp_left .inr⟩

theorem AreSides.mem (hf : f.IsFirstOrder sorts w) (h : AreSides sorts w f e a b)
    (hS : IsOver S f (e :: work)) (hx : x ∈ a.expr.vars ∨ x ∈ b.expr.vars) : x ∈ S := by
  obtain ⟨hfree, hx⟩ := h.of_mem_vars hf hx
  exact hS x hfree (hx.imp_left fun hx => ⟨e, List.mem_cons_self, hx⟩)

theorem AreSides.mentions (hf : f.IsFirstOrder sorts w) (h : AreSides sorts w f e a b)
    (hx : x ∈ a.expr.vars ∨ x ∈ b.expr.vars) : f.Mentions x ∨ Occurs (e :: work) x :=
  (h.of_mem_vars hf hx).2.elim (fun hx => .inr ⟨e, List.mem_cons_self, hx⟩) fun hx => .inl (.inr (.inl hx))

/-- Where the bindings hold the sides have the values of the equation. -/
theorem AreSides.solves (h : AreSides sorts w f e a b) (hθ : f.substitution.Holds θ) :
    a.expr.subst θ = b.expr.subst θ ↔ e.1.expr.subst θ = e.2.expr.subst θ := by
  rw [h.leftExpr, h.rightExpr, instanceOf, instanceOf, Expr.subst_ofValues fun _ _ => hθ.get?,
    Expr.subst_ofValues fun _ _ => hθ.get?]

/-! ### An equation comes to others -/

theorem isOver_parts (hf : f.IsFirstOrder sorts w) (h : AreSides sorts w f e a b) (hes : Splits sorts w a b es)
    (hS : IsOver S f (e :: work)) : IsOver S f (es ++ work) := by
  rintro x hfree (⟨d, hd, hx⟩ | hx)
  · rcases List.mem_append.mp hd with hd | hd
    · exact h.mem hf hS (hes.vars d hd x hx)
    · exact hS x hfree (.inl ⟨d, List.mem_cons_of_mem e hd, hx⟩)
  · exact hS x hfree (.inr hx)

theorem load_parts_lt (hf : f.IsFirstOrder sorts w) (h : AreSides sorts w f e a b) (hes : Splits sorts w a b es)
    (work : List Equation) : f.load (es ++ work) < f.load (e :: work) := by
  have hsame : f.load es = (es.map fun e => e.1.expr.size + e.2.expr.size).sum := by
    refine congrArg List.sum (List.map_congr_left fun d hd => ?_)
    have hfree : ∀ x, x ∈ d.1.expr.vars ∨ x ∈ d.2.expr.vars → f.substitution.get? x = none :=
      fun x hx => (h.of_mem_vars hf (hes.vars d hd x hx)).1
    rw [instanceOf, instanceOf, Substitution.subst_of_free fun x hx => hfree x (.inl hx),
      Substitution.subst_of_free fun x hx => hfree x (.inr hx)]
  have hlt := hes.size
  rw [h.leftExpr, h.rightExpr, ← hsame] at hlt
  rw [load_append, ← List.singleton_append (x := e), load_append]
  exact Nat.add_lt_add_right (by simpa [load] using hlt) _

theorem adds_parts (hf : f.IsFirstOrder sorts w) (h : AreSides sorts w f e a b) (hes : Splits sorts w a b es)
    (hg : Adds sorts w' f (es ++ work) g) : Adds sorts w' f (e :: work) g := by
  refine { hg with mentions := fun x hx => ?_, holds := fun θ hθ => ?_, complete := fun θ hsorted hθ hall => ?_ }
  · obtain hx | ⟨d, hd, hx⟩ := hg.mentions x hx
    · exact .inl hx
    · rcases List.mem_append.mp hd with hd | hd
      · exact h.mentions hf (hes.vars d hd x hx)
      · exact .inr ⟨d, List.mem_cons_of_mem e hd, hx⟩
  · obtain ⟨hholds, hall⟩ := hg.holds θ hθ
    obtain ⟨hparts, hwork⟩ := List.forall_mem_append.mp hall
    exact ⟨hholds, List.forall_mem_cons.mpr ⟨(h.solves hholds.substitution).mp (hes.solves θ hparts), hwork⟩⟩
  · obtain ⟨he, hwork⟩ := List.forall_mem_cons.mp hall
    have hparts := hes.solved θ ((h.solves hθ.substitution).mpr he)
    exact hg.complete θ hsorted hθ (List.forall_mem_append.mpr ⟨hparts, hwork⟩)

/-! ### An equation is kept -/

theorem IsStuck.isCall {isCall : Term → Bool} (h : IsStuck isCall a b) : isCall a ∨ isCall b := by
  cases h with
  | untyped _ hcall _ => exact .inr hcall
  | call _ _ _ hcall => exact hcall

theorem isFirstOrder_keepEquation (hf : f.IsFirstOrder sorts w) (ha : a.Plain sorts w) (hb : b.Plain sorts w)
    (h : IsStuck f.isCall a b) : (f.keepEquation a b).IsFirstOrder sorts w := by
  rcases f.keepEquation_cases a b with ⟨heq, -⟩ | ⟨heq, -⟩ <;> rw [heq]
  · exact hf
  · exact ⟨hf.resolved, hf.named, List.forall_mem_append.mpr ⟨hf.equations, List.forall_mem_singleton.mpr ⟨ha, hb⟩⟩,
      List.forall_mem_append.mpr ⟨hf.calls, List.forall_mem_singleton.mpr h.isCall⟩, hf.lookups⟩

theorem substitution_keepEquation (f : Formula) (l r : Term) :
    (f.keepEquation l r).substitution = f.substitution := by
  rcases f.keepEquation_cases l r with ⟨h, -⟩ | ⟨h, -⟩ <;> rw [h]

/-- Of a normal formula and a stuck equation without bound variables a normal formula is made. -/
theorem grows_keepEquation (h : IsStuck f.isCall a b)
    (hfree : ∀ x, x ∈ a.expr.vars ∨ x ∈ b.expr.vars → f.substitution.get? x = none) :
    Grows f (f.keepEquation a b) := by
  rcases f.keepEquation_cases a b with ⟨heq, -⟩ | ⟨heq, hnew⟩ <;> rw [heq]
  · exact .refl f
  · refine ⟨id, .inr (.inr ⟨rfl, fun hf => ?_⟩)⟩
    refine ⟨List.forall_mem_append.mpr ⟨hf.stuck, List.forall_mem_singleton.mpr h⟩,
      List.forall_mem_append.mpr ⟨hf.free, List.forall_mem_singleton.mpr hfree⟩, ?_, hf.lookupFree, hf.lookupDistinct⟩
    refine List.pairwise_append.mpr ⟨hf.distinct, List.pairwise_singleton _ _, fun d hd e he => ?_⟩
    rw [List.mem_singleton.mp he]
    exact hnew d hd

theorem mentions_keepEquation (hx : (f.keepEquation a b).Mentions x) :
    f.Mentions x ∨ x ∈ a.expr.vars ∨ x ∈ b.expr.vars := by
  rcases f.keepEquation_cases a b with ⟨heq, -⟩ | ⟨heq, -⟩ <;> rw [heq] at hx
  · exact .inl hx
  · obtain hx | hx | ⟨e, he, hx⟩ := hx
    · exact .inl (.inl hx)
    · exact .inl (.inr (.inl hx))
    · rcases List.mem_append.mp he with he | he
      · exact .inl (.inr (.inr ⟨e, he, hx⟩))
      · rw [List.mem_singleton.mp he] at hx
        exact .inr hx

theorem adds_keep (hf : f.IsFirstOrder sorts w) (hsides : AreSides sorts w f e a b)
    (hside : c = a ∧ d = b ∨ c = b ∧ d = a) (h : IsStuck f.isCall c d)
    (hg : Adds sorts w' (f.keepEquation c d) work g) : Adds sorts w' f (e :: work) g := by
  have hvars (x : Var) (hx : x ∈ c.expr.vars ∨ x ∈ d.expr.vars) : x ∈ a.expr.vars ∨ x ∈ b.expr.vars := by
    rcases hside with ⟨rfl, rfl⟩ | ⟨rfl, rfl⟩
    · exact hx
    · exact hx.symm
  have heq (θ : Var → Expr) : c.expr.subst θ = d.expr.subst θ ↔ a.expr.subst θ = b.expr.subst θ := by
    rcases hside with ⟨rfl, rfl⟩ | ⟨rfl, rfl⟩
    · rfl
    · exact eq_comm
  have hkept : (f.keepEquation c d).functions = f.functions ∧ (f.keepEquation c d).lookups = f.lookups := by
    rcases f.keepEquation_cases c d with ⟨heq, -⟩ | ⟨heq, -⟩ <;> rw [heq] <;> exact ⟨rfl, rfl⟩
  refine ⟨⟨hg.isFirstOrder, hg.functions.trans hkept.1, ?_, fun x hx => ?_⟩, hkept.2 ▸ hg.lookups, fun θ hθ => ?_,
    fun θ hsorted hθ hall => ?_⟩
  · exact (grows_keepEquation h fun x hx => (hsides.of_mem_vars hf (hvars x hx)).1).trans hg.grows
  · obtain hx | ⟨d, hd, hx⟩ := hg.mentions x hx
    · rcases mentions_keepEquation hx with hx | hx
      · exact .inl hx
      · exact hsides.mentions hf (hvars x hx)
    · exact .inr ⟨d, List.mem_cons_of_mem e hd, hx⟩
  · obtain ⟨hholds, hwork⟩ := hg.holds θ hθ
    obtain ⟨hholds, h⟩ := holds_keepEquation.mp hholds
    exact ⟨hholds, List.forall_mem_cons.mpr ⟨(hsides.solves hholds.substitution).mp ((heq θ).mp h), hwork⟩⟩
  · obtain ⟨he, hwork⟩ := List.forall_mem_cons.mp hall
    have h := (heq θ).mpr ((hsides.solves hθ.substitution).mpr he)
    exact hg.complete θ hsorted (holds_keepEquation.mpr ⟨hθ, h⟩) hwork

/-! ### An equation binds a variable -/

theorem makes_extend (hf : f.IsFirstOrder sorts w) (hu : u.Plain sorts w) (hsort : u.sort.subsortOf v.sort)
    (hv : f.substitution.get? v = none) (hfree : ∀ x ∈ u.expr.vars, f.substitution.get? x = none)
    (habsent : v ∉ u.expr.vars) :
    Makes w (f.extend v u) fun w' f' => ∃ σ, f' = { f with substitution := σ } ∧
      f.substitution.IsExtension sorts w' v u σ :=
  Making.bind (Substitution.makes_extend hf.resolved hu hsort hv hfree habsent) fun _ σ _ h =>
    Making.pure ⟨σ, rfl, h⟩

variable {σ : Substitution}

theorem isOver_bind (hf : f.IsFirstOrder sorts w) (h : AreSides sorts w f e a b)
    (hu : ∀ x ∈ u.expr.vars, x ∈ a.expr.vars ∨ x ∈ b.expr.vars)
    (hσ : f.substitution.IsExtension sorts w' v u σ) (hS : IsOver S f (e :: work)) :
    IsOver (S.erase v) { f with substitution := σ } work := by
  intro x hfree hx
  obtain ⟨hne, hfree⟩ := (hσ.get?_eq_none x).mp hfree
  refine Finset.mem_erase.mpr ⟨hne, ?_⟩
  rcases hx with ⟨d, hd, hx⟩ | hx
  · exact hS x hfree (.inl ⟨d, List.mem_cons_of_mem e hd, hx⟩)
  · rcases hσ.mentions x hx with hx | hx
    · exact h.mem hf hS (hu x hx)
    · exact hS x hfree (.inr hx)

theorem isFirstOrder_bind (hf : f.IsFirstOrder sorts w) (hw : w ≤ w') (hv : v.isDontCare = false)
    (hσ : f.substitution.IsExtension sorts w' v u σ) :
    IsFirstOrder sorts w' { f with substitution := σ } := by
  have hf := hf.mono hw
  refine ⟨hσ.resolved, fun b hb => ?_, hf.equations, hf.calls, hf.lookups⟩
  have hbound : σ.get? b.1 ≠ none := fun h => Substitution.get?_eq_none_iff.mp h b hb rfl
  by_cases hbv : b.1 = v
  · rwa [hbv]
  · obtain ⟨t, ht⟩ := Option.ne_none_iff_exists'.mp fun h => hbound ((hσ.get?_eq_none b.1).mpr ⟨hbv, h⟩)
    exact hf.named (b.1, t) (Substitution.mem_bindings ht)

theorem adds_bind (hf : f.IsFirstOrder sorts w) (h : AreSides sorts w f e a b)
    (hside : a.expr = .var v ∧ u = b ∨ b.expr = .var v ∧ u = a)
    (hσ : f.substitution.IsExtension sorts w' v u σ)
    {w'' : World} (hg : Adds sorts w'' { f with substitution := σ } work g) :
    Adds sorts w'' f (e :: work) g := by
  have hvalue (θ : Var → Expr) : a.expr.subst θ = b.expr.subst θ ↔ θ v = u.expr.subst θ := by
    rcases hside with ⟨hv, rfl⟩ | ⟨hv, rfl⟩
    · rw [hv, Expr.subst_var]
    · rw [hv, Expr.subst_var, eq_comm]
  have hvars (x : Var) (hx : x = v ∨ x ∈ u.expr.vars) : x ∈ a.expr.vars ∨ x ∈ b.expr.vars := by
    rcases hside with ⟨hv, rfl⟩ | ⟨hv, rfl⟩
    · exact hx.imp (fun hx => by simp [hv, hx]) id
    · exact hx.symm.imp id fun hx => by simp [hv, hx]
  refine { hg with grows := ?_, mentions := fun x hx => ?_, holds := fun θ hθ => ?_,
                   complete := fun θ hsorted hθ hall => ?_ }
  · have hsize : f.substitution.size < σ.size := hσ.size ▸ Nat.lt_succ_self _
    exact Grows.trans (g := { f with substitution := σ }) ⟨id, .inr (.inl hsize)⟩ hg.grows
  · obtain (hx | hx | hx) | ⟨d, hd, hx⟩ := hg.mentions x hx
    · by_cases hxv : x = v
      · exact h.mentions hf (hvars x (.inl hxv))
      · exact .inl (.inl fun hnone => hx ((hσ.get?_eq_none x).mpr ⟨hxv, hnone⟩))
    · rcases hσ.mentions x hx with hx | hx
      · exact h.mentions hf (hvars x (.inr hx))
      · exact .inl (.inr (.inl hx))
    · exact .inl (.inr (.inr hx))
    · exact .inr ⟨d, List.mem_cons_of_mem e hd, hx⟩
  · obtain ⟨hholds, hwork⟩ := hg.holds θ hθ
    obtain ⟨hbindings, hv⟩ := (hσ.holds θ).mp hholds.substitution
    have he := (h.solves hbindings).mp ((hvalue θ).mpr hv)
    exact ⟨⟨hholds.isFalse, hbindings, hholds.equations⟩, List.forall_mem_cons.mpr ⟨he, hwork⟩⟩
  · obtain ⟨he, hwork⟩ := List.forall_mem_cons.mp hall
    have hv := (hvalue θ).mp ((h.solves hθ.substitution).mpr he)
    exact hg.complete θ hsorted ⟨hθ.isFalse, (hσ.holds θ).mpr ⟨hθ.substitution, hv⟩, hθ.equations⟩ hwork

end Equation

/-! ### Runs -/

/-- The worklist without a bound on its steps: from the formula and the equations, where the next node has the
number `n`, it comes to a formula, and the next node has the last number. -/
inductive WorksOff : Formula → List Equation → Nat → Formula → Nat → Prop where
  | done (f : Formula) (n : Nat) : WorksOff f [] n f n
  /-- Nodes are made elsewhere. -/
  | later {f g : Formula} {work : List Equation} {n m k : Nat} (hn : n ≤ m) (hs : WorksOff f work m g k) :
      WorksOff f work n g k
  | known {f : Formula} (h : f.isFalse) (work : List Equation) (n : Nat) : WorksOff f work n f n
  | advance {f g k : Formula} {e : Equation} {work more : List Equation} {n m l : Nat} (hf : f.isFalse = false)
      (hm : f.nextMove e n = (.ok (.advance g more), m)) (hs : WorksOff g (more ++ work) m k l) :
      WorksOff f (e :: work) n k l
  | bind {f g k : Formula} {e : Equation} {work : List Equation} {v : Var} {t : Term} {n m m' l : Nat}
      (hf : f.isFalse = false) (hm : f.nextMove e n = (.ok (.bind v t), m))
      (hx : f.extend v t m = (.ok g, m')) (hs : WorksOff g work m' k l) : WorksOff f (e :: work) n k l
  | stop {f g : Formula} {e : Equation} {n m : Nat} (hf : f.isFalse = false)
      (hm : f.nextMove e n = (.ok (.stop g), m)) (work : List Equation) : WorksOff f (e :: work) n g m

theorem solveUpTo_cons (bound : Formula → List Equation → Build Formula) (n : Nat) (f : Formula) (e : Equation)
    (work : List Equation) : solveUpTo bound (n + 1) f (e :: work) =
      if f.isFalse then pure f else do
        match ← f.nextMove e with
        | .advance g more => solveUpTo bound n g (more ++ work)
        | .bind v t => bound (← f.extend v t) work
        | .stop g => return g := by
  rw [solveUpTo, nextMove, bind_assoc]
  split
  · rfl
  · exact bind_congr fun a => (bind_assoc ..).symm

/-- All work over fewer than `N` free variables is done. -/
def Completes (sorts : String → SortName) (run : Formula → List Equation → Build Formula) (N : Nat) : Prop :=
  ∀ ⦃w f work S⦄, IsFirstOrder sorts w f → ArePlain sorts w work → IsOver S f work → S.card < N →
    Makes w (run f work) fun w' g => Adds sorts w' f work g ∧ WorksOff f work w.next g w'.next

section Runs
variable {bound : Formula → List Equation → Build Formula} {N : Nat} {S : Finset Var} {e : Equation} {a b u : Term}

/-- A variable is bound, and there is one free variable fewer. -/
theorem makes_bound (hbound : Completes sorts bound N) (hf : f.IsFirstOrder sorts w) (h : AreSides sorts w f e a b)
    (hside : a.expr = .var v ∧ u = b ∨ b.expr = .var v ∧ u = a) (hsort : u.sort.subsortOf v.sort)
    (habsent : v ∉ u.expr.vars) (hwork : ArePlain sorts w work) (hS : IsOver S f (e :: work))
    (hcard : S.card < N + 1) :
    Makes w (do bound (← f.extend v u) work) fun w' g => Adds sorts w' f (e :: work) g ∧
      ∃ f' m, f.extend v u w.next = (.ok f', m) ∧ WorksOff f' work m g w'.next := by
  have hv : v ∈ a.expr.vars ∨ v ∈ b.expr.vars :=
    hside.imp (fun h => by simp [h.1]) fun h => by simp [h.1]
  have hnamed : v.isDontCare = false := hv.elim (h.left.isPlain.named v) (h.right.isPlain.named v)
  obtain ⟨hu, hvars⟩ : u.Plain sorts w ∧ ∀ x ∈ u.expr.vars, x ∈ a.expr.vars ∨ x ∈ b.expr.vars := by
    rcases hside with ⟨-, rfl⟩ | ⟨-, rfl⟩
    · exact ⟨h.right, fun x => .inr⟩
    · exact ⟨h.left, fun x => .inl⟩
  have hfree : ∀ x ∈ u.expr.vars, f.substitution.get? x = none :=
    fun x hx => (h.of_mem_vars hf (hvars x hx)).1
  refine Build.Makes.bind (makes_extend hf hu hsort (h.of_mem_vars hf hv).1 hfree habsent).run fun w₁ g hw₁ hg => ?_
  obtain ⟨hrun, σ, rfl, hσ⟩ := hg
  refine Making.mono (hbound (isFirstOrder_bind hf hw₁ hnamed hσ) (hwork.mono hw₁) (isOver_bind hf h hvars hσ hS) ?_)
    fun w₂ g _ hg => ⟨adds_bind hf h hside hσ hg.1, _, _, hrun, hg.2⟩
  have := Finset.card_erase_lt_of_mem (h.mem hf hS hv)
  omega

/-- With a step for each symbol of the work, work goes on until a variable is bound or nothing is left. -/
theorem makes_solveUpTo (hbound : Completes sorts bound N) (n : Nat) :
    ∀ {w f work}, IsFirstOrder sorts w f → ArePlain sorts w work → IsOver S f work → S.card < N + 1 →
      f.load work ≤ n → Makes w (solveUpTo bound n f work) fun w' g =>
        Adds sorts w' f work g ∧ WorksOff f work w.next g w'.next := by
  induction n with
  | zero =>
    intro w f work hf _ _ _ hload
    cases work with
    | nil => exact Making.pure ⟨.refl hf, .done f _⟩
    | cons e work =>
      have := (f.instanceOf e.1).size_pos
      simp only [load, List.map_cons, List.sum_cons] at hload
      omega
  | succ n ih =>
    intro w f work hf hwork hS hcard hload
    cases work with
    | nil => exact Making.pure ⟨.refl hf, .done f _⟩
    | cons e work =>
      obtain ⟨he, hwork⟩ := List.forall_mem_cons.mp hwork
      rw [solveUpTo_cons]
      split
      · rename_i hfalse
        exact Making.pure ⟨adds_of_isFalse hf hfalse, .known hfalse _ _⟩
      rename_i hfalse
      have hfalse : f.isFalse = false := by simpa using hfalse
      refine Build.Makes.bind (makes_nextMove hf he).run fun w₁ m hw₁ hm => ?_
      obtain ⟨hrun, a, b, hsides, -, hmoves⟩ := hm
      have hf := hf.mono hw₁
      have hwork : ArePlain sorts w₁ work := ArePlain.mono hw₁ hwork
      cases hmoves with
      | @advance es hes =>
        refine Making.mono (ih hf (List.forall_mem_append.mpr ⟨hes.plain, hwork⟩)
          (isOver_parts hf hsides hes hS) hcard ?_) fun w' g _ hg =>
            ⟨adds_parts hf hsides hes hg.1, .advance hfalse hrun hg.2⟩
        have := load_parts_lt hf hsides hes work
        omega
      | @keep c d hside hstuck =>
        obtain ⟨hc, hd⟩ : c.Plain sorts w₁ ∧ d.Plain sorts w₁ := by
          rcases hside with ⟨rfl, rfl⟩ | ⟨rfl, rfl⟩
          · exact ⟨hsides.left, hsides.right⟩
          · exact ⟨hsides.right, hsides.left⟩
        have hsame := substitution_keepEquation f c d
        refine Making.mono (ih (isFirstOrder_keepEquation hf hc hd hstuck) hwork ?_ hcard ?_) fun w' g _ hg =>
          ⟨adds_keep hf hsides hside hstuck hg.1, .advance hfalse hrun hg.2⟩
        · unfold IsOver
          rw [hsame]
          exact fun x hfree hx => hS x hfree (hx.imp_left fun ⟨d, hd, hx⟩ => ⟨d, List.mem_cons_of_mem e hd, hx⟩)
        · have := (f.instanceOf e.1).size_pos
          have hload' : (f.keepEquation c d).load work = f.load work := by simp only [load, instanceOf, hsame]
          simp only [load, List.map_cons, List.sum_cons] at hload hload' ⊢
          omega
      | @bind v u hside hsort habsent =>
        refine Making.mono (makes_bound hbound hf hsides
          (hside.imp (And.imp_left Term.expr_of_var) (And.imp_left Term.expr_of_var)) hsort habsent hwork hS hcard)
          fun w' g _ hg => ?_
        obtain ⟨hadds, f', m, hx, hs⟩ := hg
        exact ⟨hadds, .bind hfalse hrun hx hs⟩
      | stop hnone =>
        refine Build.Makes.pure ⟨adds_falsify hf fun θ hsorted hθ hall => ?_, .stop hfalse hrun work⟩
        exact hnone θ hsorted ((hsides.solves hθ.substitution).mpr (hall _ List.mem_cons_self))

end Runs

theorem makes_weights (hf : f.IsFirstOrder sorts w) (hwork : ArePlain sorts w work) :
    Makes w (work.mapM fun e => do return (← f.weightOf e.1) + (← f.weightOf e.2)) fun _ weights =>
      weights.foldr (· + ·) 0 = f.load work := by
  have hweights : Makes w (work.mapM fun e => do return (← f.weightOf e.1) + (← f.weightOf e.2))
      fun _ => List.Forall₂ (fun e n => n = (f.instanceOf e.1).size + (f.instanceOf e.2).size) work := by
    refine Making.mapM (fun _ _ _ _ _ h => h) fun e he w₁ hw₁ => ?_
    refine Making.bind (makes_weightOf (hf.mono hw₁) ((hwork e he).1.mono hw₁)) fun w₂ m hw₂ hm => ?_
    have hw := World.le_trans hw₁ hw₂
    refine Making.bind (makes_weightOf (hf.mono hw) ((hwork e he).2.mono hw)) fun _ k _ hk => ?_
    exact Making.pure (by rw [hm, hk])
  refine Making.mono hweights fun _ weights _ hweights => ?_
  have hload : weights = work.map fun e => (f.instanceOf e.1).size + (f.instanceOf e.2).size := by
    rw [← List.forall₂_eq_eq_eq, List.forall₂_map_right_iff]
    exact hweights.flip
  rw [hload]
  rfl

theorem completes_solveBinding (sorts : String → SortName) (n : Nat) : Completes sorts (solveBinding n) n := by
  induction n with
  | zero =>
    intro w f work S _ _ _ hcard
    exact absurd hcard (Nat.not_lt_zero _)
  | succ n ih =>
    intro w f work S hf hwork hS hcard
    unfold solveBinding
    refine Making.bind (makes_weights hf hwork) fun w₁ weights hw₁ hweights => ?_
    have hload : f.load work ≤ weights.foldr (· + ·) 0 + slack := hweights ▸ Nat.le_add_right _ slack
    exact Making.mono (makes_solveUpTo ih _ (hf.mono hw₁) (hwork.mono hw₁) hS hcard hload) fun _ _ _ hg =>
      ⟨hg.1, .later hw₁.1 hg.2⟩

/-- The variables of the work and of the bindings, as often as there are. -/
theorem makes_solve (hf : f.IsFirstOrder sorts w) (hwork : ArePlain sorts w work) :
    Makes w (f.solve work) fun w' g => Adds sorts w' f work g ∧ WorksOff f work w.next g w'.next := by
  let vars := work.flatMap (fun e => e.1.vars ++ e.2.vars) ++
    f.substitution.bindings.flatMap fun b => b.1 :: b.2.vars
  refine completes_solveBinding sorts _ (S := vars.eraseDups.toFinset) hf hwork (fun x _ hx => ?_) ?_
  · rw [List.mem_toFinset, List.mem_eraseDups, List.mem_append, List.mem_flatMap, List.mem_flatMap]
    refine hx.imp (fun ⟨e, he, hx⟩ => ⟨e, he, ?_⟩) fun ⟨b, hb, hx⟩ => ⟨b, hb, ?_⟩
    · rw [← Term.vars_expr (hwork e he).1.knows.isFirstOrder,
        ← Term.vars_expr (hwork e he).2.knows.isFirstOrder]
      exact List.mem_append.mpr hx
    · rw [← Term.vars_expr (hf.resolved.plain b hb).knows.isFirstOrder]
      exact List.mem_cons_of_mem _ hx
  · have hle := vars.eraseDups.toFinset_card_le
    exact Nat.lt_of_le_of_lt hle (Nat.lt_add_of_pos_right (by decide))

theorem IsFirstOrder.makes_add {l r : Term} (hf : f.IsFirstOrder sorts w) (hl : l.Plain sorts w) (hr : r.Plain sorts w) :
    Makes w (f.add l r) fun w' g => Adds sorts w' f [(l, r)] g ∧ WorksOff f [(l, r)] w.next g w'.next := by
  unfold add
  split
  · rename_i hfalse
    exact Making.pure ⟨adds_of_isFalse hf hfalse, .known hfalse _ _⟩
  · rw [Lookup.ofEquation?, hl.ofCall?_eq_none, hr.ofCall?_eq_none]
    exact makes_solve hf (List.forall_mem_singleton.mpr ⟨hl, hr⟩)

end Formula

end RuleCompiler
