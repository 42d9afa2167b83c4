import RuleCompiler.Proofs.Coupling.Decompose

/-! # Two runs of a solver

Two runs that solve related equations bind the same variables, to related terms, and keep related equations and
lookups. Where one of them comes to a clash the other does. -/

namespace RuleCompiler

open Matching (Pairs RelPair)

variable {C : Coupling} {n m : Nat}

/-- Both runs go on from a clash, whichever it is. -/
theorem Coupling.tryCatch {α β : Type} {R : Nat → α → β → Prop} {x : Build α} {y : Build β}
    {recover : Clash → Build α} {recover' : Clash → Build β} (h : C.Runs n R x y)
    (hr : ∀ k c d, n ≤ k → C.Runs k R (recover c) (recover' d)) :
    C.Runs n R (MonadExcept.tryCatch x recover) (MonadExcept.tryCatch y recover') := by
  refine C.runs_iff.mpr fun hn => ?_
  obtain ⟨hle, hlead, hout⟩ := C.runs_iff.mp h hn
  rw [Build.tryCatch_apply, Build.tryCatch_apply]
  generalize x n = r, y (n + C.lead) = s at hle hlead hout
  obtain ⟨r, k⟩ := r
  obtain ⟨s, _⟩ := s
  obtain rfl := hlead
  cases hout with
  | ok hR => exact ⟨hle, rfl, .ok hR⟩
  | error c d =>
    obtain ⟨hle', hlead', hout⟩ := C.runs_iff.mp (hr k c d hle) (Nat.le_trans hn hle)
    exact ⟨Nat.le_trans hle hle', hlead', hout⟩

theorem Term.weight_congr {t u : Term} (h : t == u) : t.weight = u.weight := by
  induction t using Term.induction generalizing u with
  | h t ih =>
    have hweights : t.children.map weight = u.children.map weight :=
      PairedLists.map_eq (PairedLists.imp_mem (children_congr h) fun c hc _ _ h => ih c hc h)
    have halike := alike_of_beq h
    rw [weight, fold_eq, fold_eq, ← weight, hweights, frames_congr h]
    generalize t.node = m, u.node = n at halike
    cases halike with
    | seq hs => cases hs <;> rfl
    | _ => rfl

theorem Substitution.Coupled.beq_congr {σ σ' τ τ' : Substitution} (h : σ.Coupled C n σ') (h' : τ.Coupled C n τ') :
    (σ == τ) = (σ' == τ') := by
  refine PairedLists.beq_congr (fun b b' c c' hb hc => ?_) h h'
  show (b.1 == c.1 && b.2 == c.2) = (b'.1 == c'.1 && b'.2 == c'.2)
  rw [hb.1, hc.1, Term.beq_congr (C.beq hb.2) (C.beq hc.2)]

namespace Formula

/-- The same variables are bound, and related equations and lookups wait. -/
structure Coupled (C : Coupling) (n : Nat) (f g : Formula) : Prop where
  substitution : f.substitution.Coupled C n g.substitution
  equations : Pairs C n f.equations g.equations
  lookups : List.Forall₂ (Lookup.Coupled C n) f.lookups g.lookups
  isFalse : f.isFalse = g.isFalse
  functions : f.functions = g.functions

namespace Move

/-- The same is done with an equation. -/
inductive Coupled (C : Coupling) (n : Nat) : Move → Move → Prop where
  | advance {f g : Formula} {es es' : List Equation} (hf : f.Coupled C n g) (hes : Pairs C n es es') :
      Coupled C n (advance f es) (advance g es')
  | bind {v : Var} {t u : Term} (h : C.Rel n t u) : Coupled C n (bind v t) (bind v u)
  | stop {f g : Formula} (hf : f.Coupled C n g) : Coupled C n (stop f) (stop g)

end Move

variable {f g : Formula} {t u t' u' : Term} {d d' : Lookup} {es es' : List Equation}

namespace Coupled

theorem mono (hm : n ≤ m) (h : f.Coupled C n g) : f.Coupled C m g :=
  ⟨h.substitution.mono hm, Pairs.mono hm h.equations, h.lookups.imp fun _ _ => Lookup.Coupled.mono hm, h.isFalse,
    h.functions⟩

theorem truth (functions : List String) : (Formula.truth functions).Coupled C n (Formula.truth functions) :=
  ⟨.nil, .nil, .nil, rfl, rfl⟩

theorem ofSubstitution {σ τ : Substitution} (h : σ.Coupled C n τ) (functions : List String) :
    (Formula.ofSubstitution σ functions).Coupled C n (Formula.ofSubstitution τ functions) :=
  ⟨h, .nil, .nil, rfl, rfl⟩

theorem isSolved (h : f.Coupled C n g) : f.isSolved = g.isSolved := by
  rw [Formula.isSolved, Formula.isSolved, h.isFalse, PairedLists.isEmpty_eq h.equations,
    PairedLists.isEmpty_eq h.lookups]

theorem apply (h : f.Coupled C n g) (ht : C.Rel n t u) : C.Runs n C.Rel (f.apply t) (g.apply u) :=
  h.substitution.apply ht

theorem isCall (h : f.Coupled C n g) : f.isCall = g.isCall := by
  funext t
  rw [Formula.isCall, Formula.isCall, h.functions]

theorem falsify (h : f.Coupled C n g) : f.falsify.Coupled C n g.falsify :=
  ⟨h.substitution, .nil, .nil, rfl, h.functions⟩

theorem keepEquation (h : f.Coupled C n g) (ht : C.Rel n t t') (hu : C.Rel n u u') :
    (f.keepEquation t u).Coupled C n (g.keepEquation t' u') := by
  have hany : (f.equations.any fun e => e == (t, u) || e == (u, t)) =
      g.equations.any fun e => e == (t', u') || e == (u', t') := by
    refine PairedLists.any_eq (h.equations.imp fun e e' he => ?_)
    show (e.1 == t && e.2 == u || e.1 == u && e.2 == t) = (e'.1 == t' && e'.2 == u' || e'.1 == u' && e'.2 == t')
    have hbeq {a a' b b' : Term} (ha : C.Rel n a a') (hb : C.Rel n b b') : (a == b) = (a' == b') :=
      Term.beq_congr (C.beq ha) (C.beq hb)
    rw [hbeq he.1 ht, hbeq he.2 hu, hbeq he.1 hu, hbeq he.2 ht]
  unfold Formula.keepEquation
  rw [hany]
  split
  · exact h
  · exact ⟨h.substitution, List.rel_append h.equations (.cons ⟨ht, hu⟩ .nil), h.lookups, h.isFalse, h.functions⟩

theorem keepLookup (h : f.Coupled C n g) (hd : d.Coupled C n d') : (f.keepLookup d).Coupled C n (g.keepLookup d') := by
  have hcontains : f.lookups.contains d = g.lookups.contains d' := by
    rw [List.contains_eq_any_beq, List.contains_eq_any_beq]
    exact PairedLists.any_eq (h.lookups.imp fun _ _ he => hd.beq_congr he)
  unfold Formula.keepLookup
  rw [hcontains]
  split
  · exact h
  · exact ⟨h.substitution, h.equations, List.rel_append h.lookups (.cons hd .nil), h.isFalse, h.functions⟩

theorem extend (h : f.Coupled C n g) (v : Var) (ht : C.Rel n t u) :
    C.Runs n (Coupled C) (f.extend v t) (g.extend v u) := by
  refine C.bind (h.substitution.extend v ht) fun k σ τ hk hσ => C.pure ?_
  have hf := h.mono hk
  exact ⟨hσ, hf.equations, hf.lookups, hf.isFalse, hf.functions⟩

end Coupled

/-! ### Moves -/

theorem coupled_mapTerms (h : f.Coupled C n g) (hd : d.Coupled C n d') :
    C.Runs n (Lookup.Coupled C) (d.mapTerms f.apply) (d'.mapTerms g.apply) :=
  Lookup.coupled_mapTerms (fun _ _ _ hk ht => (h.mono hk).apply ht) hd

theorem coupled_move (h : f.Coupled C n g) (ht : C.Rel n t t') (hu : C.Rel n u u') :
    C.Runs n (Move.Coupled C) (f.move t u) (g.move t' u') := by
  have hlookup := Lookup.ofEquation?_coupled ht hu
  unfold move
  rw [Term.beq_congr (C.beq ht) (C.beq hu)]
  refine Pairing.ite (fun _ => C.pure (.advance h .nil)) fun _ => ?_
  generalize Lookup.ofEquation? t u = o, Lookup.ofEquation? t' u' = o' at hlookup
  cases hlookup with
  | some hd =>
    refine C.bind (coupled_mapTerms h hd) fun k d d' hk hd => ?_
    have hresolve := Lookup.resolve_coupled hd
    have hf := h.mono hk
    generalize d.resolve = r, d'.resolve = r' at hresolve
    cases hresolve with
    | equation hl hr => exact C.pure (.advance hf (.cons ⟨hl, hr⟩ .nil))
    | holds => exact C.pure (.advance hf .nil)
    | fails => exact C.pure (.stop hf.falsify)
    | pending => exact C.pure (.advance (hf.keepLookup hd) .nil)
  | none =>
    have hcall {t u : Term} (h : t == u) : f.isCall t = f.isCall u := by
      rw [isCall, isCall, Term.constLabel?_congr h]
    dsimp only
    rw [← h.isCall]
    refine C.bind (Decomposition.coupled_of hcall ht hu) fun k d d' hk hd => ?_
    have hf := h.mono hk
    cases hd with
    | holds => exact C.pure (.advance hf .nil)
    | parts hes => exact C.pure (.advance hf (List.forall₂_reverse_iff.mpr hes))
    | binding hv => exact C.pure (.bind hv)
    | undecided hl hr => exact C.pure (.advance (hf.keepEquation hl hr) .nil)
    | fails => exact C.pure (.stop hf.falsify)

/-! ### Solving -/

/-- Two ways to go on from a formula and the equations that are left. -/
def ContinuesAlike (C : Coupling) (bound bound' : Formula → List Equation → Build Formula) : Prop :=
  ∀ {n f g es es'}, Coupled C n f g → Pairs C n es es' → C.Runs n (Coupled C) (bound f es) (bound' g es')

theorem coupled_solveUpTo {bound bound' : Formula → List Equation → Build Formula}
    (hbound : ContinuesAlike C bound bound') (fuel : Nat) : ContinuesAlike C (solveUpTo bound fuel) (solveUpTo bound' fuel) := by
  induction fuel with
  | zero =>
    intro n f g es es' h hes
    cases hes <;> exact C.pure h
  | succ fuel ih =>
    intro n f g es es' h hes
    cases hes with
    | nil =>
      rw [solveUpTo, solveUpTo]
      exact C.pure h
    | @cons e e' work work' he hwork =>
      rw [solveUpTo, solveUpTo, h.isFalse]
      refine Pairing.ite (fun _ => C.pure h) fun _ => ?_
      refine C.bind (h.apply he.1) fun k l l' hk hl => ?_
      refine C.bind ((h.mono hk).apply (C.rel_mono hk he.2)) fun i r r' hi hr => ?_
      refine C.bind (coupled_move (h.mono (by omega)) (C.rel_mono hi hl) hr) fun j move move' hj hmove => ?_
      have hwork : Pairs C j work work' := Pairs.mono (by omega) hwork
      cases hmove with
      | advance hf hes => exact ih hf (List.rel_append hes hwork)
      | bind hv =>
        refine C.bind ((h.mono (by omega)).extend _ hv) fun i f g hi hf => ?_
        exact hbound hf (Pairs.mono hi hwork)
      | stop hf => exact C.pure hf

theorem coupled_weightOf (h : f.Coupled C n g) (ht : C.Rel n t u) :
    C.Runs n (fun _ => Eq) (f.weightOf t) (g.weightOf u) :=
  C.tryCatch (C.bind (h.apply ht) fun _ _ _ _ ht => C.pure (Term.weight_congr (C.beq ht)))
    fun _ _ _ _ => C.pure rfl

theorem coupled_solveBinding (bindings : Nat) : ContinuesAlike C (solveBinding bindings) (solveBinding bindings) := by
  induction bindings with
  | zero => exact fun h _ => C.pure h
  | succ bindings ih =>
    intro n f g es es' h hes
    have hweights : C.Runs n (fun _ => List.Forall₂ Eq)
        (es.mapM fun e => return (← f.weightOf e.1) + (← f.weightOf e.2))
        (es'.mapM fun e => return (← g.weightOf e.1) + (← g.weightOf e.2)) := by
      refine RuleCompiler.Coupled.mapM (m := Build) (R := fun _ => Eq) (T := RelPair C) (fun _ h => h)
        Matching.RelPair.mono hes fun k hk e _ e' he => ?_
      refine C.bind (coupled_weightOf (h.mono hk) he.1) fun i w w' hi hw => ?_
      refine C.bind (coupled_weightOf (h.mono (by omega)) (C.rel_mono hi he.2)) fun j x x' _ hx => C.pure ?_
      rw [hw, hx]
    rw [solveBinding, solveBinding]
    refine C.bind hweights fun k ws ws' hk hws => ?_
    rw [List.forall₂_eq_eq_eq] at hws
    rw [hws]
    exact coupled_solveUpTo ih _ (h.mono hk) (Pairs.mono hk hes)

theorem variableCount_coupled (h : f.Coupled C n g) (hes : Pairs C n es es') :
    f.variableCount es = g.variableCount es' := by
  have hvars : (es.flatMap fun e => e.1.vars ++ e.2.vars) = es'.flatMap fun e => e.1.vars ++ e.2.vars := by
    rw [List.flatMap, List.flatMap, PairedLists.map_eq (hes.imp fun e e' he => ?_)]
    rw [Term.vars_congr (C.beq he.1), Term.vars_congr (C.beq he.2)]
  have hbound : (f.substitution.bindings.flatMap fun b => b.1 :: b.2.vars) =
      g.substitution.bindings.flatMap fun b => b.1 :: b.2.vars := by
    rw [List.flatMap, List.flatMap, PairedLists.map_eq (h.substitution.imp fun b b' hb => ?_)]
    rw [hb.1, Term.vars_congr (C.beq hb.2)]
  rw [variableCount, variableCount, hvars, hbound]

theorem coupled_solve : ContinuesAlike C solve solve := by
  intro n f g es es' h hes
  unfold solve
  rw [variableCount_coupled h hes]
  exact coupled_solveBinding _ h hes

theorem coupled_addLookup (h : f.Coupled C n g) (hd : d.Coupled C n d') :
    C.Runs n (Coupled C) (f.addLookup d) (g.addLookup d') := by
  unfold addLookup
  rw [h.isFalse]
  refine Pairing.ite (fun _ => C.pure h) fun _ => ?_
  refine C.bind (coupled_mapTerms h hd) fun k d d' hk hd => ?_
  have hresolve := Lookup.resolve_coupled hd
  have hf := h.mono hk
  generalize d.resolve = r, d'.resolve = r' at hresolve
  cases hresolve with
  | equation hl hr => exact coupled_solve hf (.cons ⟨hl, hr⟩ .nil)
  | holds => exact C.pure hf
  | fails => exact C.pure hf.falsify
  | pending => exact C.pure (hf.keepLookup hd)

theorem coupled_add (h : f.Coupled C n g) (ht : C.Rel n t t') (hu : C.Rel n u u') :
    C.Runs n (Coupled C) (f.add t u) (g.add t' u') := by
  have hlookup := Lookup.ofEquation?_coupled ht hu
  unfold add
  rw [h.isFalse]
  refine Pairing.ite (fun _ => C.pure h) fun _ => ?_
  generalize Lookup.ofEquation? t u = o, Lookup.ofEquation? t' u' = o' at hlookup
  cases hlookup with
  | some hd => exact coupled_addLookup h hd
  | none => exact coupled_solve h (.cons ⟨ht, hu⟩ .nil)

theorem coupled_addEquations : ContinuesAlike C addEquations addEquations := fun {n _ _ _ _} h hes =>
  Pairing.foldlM (T := RelPair C) Matching.RelPair.mono (fun _ _ _ _ _ _ hf he => coupled_add hf he.1 he.2) hes
    (Nat.le_refl n) h

theorem coupled_addLookups {ds ds' : List Lookup} (h : f.Coupled C n g)
    (hds : List.Forall₂ (Lookup.Coupled C n) ds ds') : C.Runs n (Coupled C) (f.addLookups ds) (g.addLookups ds') :=
  Pairing.foldlM (T := Lookup.Coupled C) Lookup.Coupled.mono (fun _ _ _ _ _ _ hf hd => coupled_addLookup hf hd) hds
    (Nat.le_refl n) h

theorem coupled_addSubstitution {σ τ : Substitution} (h : f.Coupled C n g) (hσ : σ.Coupled C n τ) :
    C.Runs n (Coupled C) (f.addSubstitution σ) (g.addSubstitution τ) := by
  let B (k : Nat) (b c : Var × Term) : Prop := b.1 = c.1 ∧ C.Rel k b.2 c.2
  have hB {i j : Nat} {b c : Var × Term} (hij : i ≤ j) (hbc : B i b c) : B j b c := ⟨hbc.1, C.rel_mono hij hbc.2⟩
  refine Pairing.foldlM (T := B) hB (fun k f g b c _ hf hbc => ?_) hσ (Nat.le_refl n) h
  rw [hbc.1]
  refine C.bind (Pairing.new_var c.1) fun i v w hi hv => ?_
  exact coupled_add (hf.mono hi) hv (C.rel_mono hi hbc.2)

/-- Two runs conjoin what is related. -/
theorem coupled_addAll {f' g' : Formula} (h : f.Coupled C n g) (h' : f'.Coupled C n g') :
    C.Runs n (Coupled C) (f.addAll f') (g.addAll g') := by
  unfold addAll
  rw [h'.isFalse]
  refine Pairing.ite (fun _ => C.pure h.falsify) fun _ => ?_
  refine C.bind (coupled_addSubstitution h h'.substitution) fun k f g hk hf => ?_
  refine C.bind (coupled_addEquations hf (Pairs.mono hk h'.equations)) fun i f g hi hf => ?_
  exact coupled_addLookups hf (h'.mono (by omega : n ≤ i)).lookups

theorem coupled_readd (h : f.Coupled C n g) : C.Runs n (Coupled C) f.readd g.readd := by
  have hf : Coupled C n { f with equations := [], lookups := [] } { g with equations := [], lookups := [] } :=
    ⟨h.substitution, .nil, .nil, h.isFalse, h.functions⟩
  exact C.bind (coupled_addEquations hf h.equations) fun k _ _ hk hf => coupled_addLookups hf (h.mono hk).lookups

theorem coupled_simplifyRounds (rounds : Nat) : ∀ {n : Nat} {f g : Formula}, f.Coupled C n g →
    C.Runs n (Coupled C) (simplifyRounds rounds f) (simplifyRounds rounds g) := by
  induction rounds with
  | zero => exact fun h => C.pure h
  | succ rounds ih =>
    intro n f g h
    rw [simplifyRounds, simplifyRounds, h.isFalse]
    refine Pairing.ite (fun _ => C.pure h) fun _ => ?_
    refine C.bind (coupled_readd h) fun k f' g' hk hf => ?_
    have hstable : f.isStable f' = g.isStable g' := by
      rw [isStable, isStable, h.equations.length_eq, hf.equations.length_eq, h.lookups.length_eq, hf.lookups.length_eq,
        (h.mono hk).substitution.beq_congr hf.substitution]
    rw [hf.isFalse, hstable]
    exact Pairing.ite (fun _ => C.pure hf) fun _ => ih hf

theorem coupled_simplify (h : f.Coupled C n g) : C.Runs n (Coupled C) f.simplify g.simplify := by
  have hterms : Pairs C n (f.lookups.flatMap fun d => d.terms.map fun t => (t, t))
      (g.lookups.flatMap fun d => d.terms.map fun t => (t, t)) := by
    refine List.rel_flatMap h.lookups fun d d' hd => ?_
    rw [List.forall₂_map_left_iff, List.forall₂_map_right_iff]
    exact hd.terms.imp fun _ _ ht => ⟨ht, ht⟩
  have hpending := variableCount_coupled h (List.rel_append h.equations hterms)
  unfold simplify
  dsimp only
  rw [hpending]
  exact coupled_simplifyRounds _ h

end Formula

end RuleCompiler
