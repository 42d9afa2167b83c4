import RuleCompiler.Proofs.Coupling.Formula
import RuleCompiler.Proofs.Nesting

/-! # Two runs of an evaluation

Two evaluations of related terms apply the same rules to related calls, in the same order, and what they come to
is related again. -/

namespace RuleCompiler

open Coupled (Runs)

variable {C : Coupling} {n m : Nat}

/-! ### Built-in operations -/

section Values
variable {P : Pairing} {args args' : List Term} {a a' b b' : Term} (htoken : ∀ s v, P.Rel n (.token s v) (.token s v))
include htoken

namespace Primitives

theorem shortcut_paired (x y : Bool) (ha : P.Rel n a a') (hb : P.Rel n b b') :
    Option.Rel (P.Rel n) (Term.primitives.shortcut x y a b) (Term.primitives.shortcut x y a' b') := by
  have hknown {t u : Term} (h : P.Rel n t u) : Term.primitives.bool? t = Term.primitives.bool? u :=
    Term.boolValue?_congr (P.beq h)
  unfold shortcut
  rw [hknown ha, hknown hb]
  split
  · exact .some (htoken _ _)
  split
  · exact .some hb
  split
  · exact .some ha
  · exact .none

theorem connect_paired (op : Connective) (h : P.RelAll n args args') :
    Option.Rel (P.Rel n) (Term.primitives.connect op args) (Term.primitives.connect op args') := by
  rcases h with _ | ⟨ha, _ | ⟨hb, _ | _⟩⟩
  · cases op <;> exact .none
  · cases op with
    | not =>
      unfold connect
      dsimp only
      rw [show Term.primitives.bool? _ = Term.primitives.bool? _ from Term.boolValue?_congr (P.beq ha)]
      cases Term.primitives.bool? _ with
      | none => exact .none
      | some x => exact .some (htoken _ _)
    | _ => exact .none
  · cases op with
    | not => exact .none
    | and =>
      rw [(connect_eq_shortcut _ _ _).1, (connect_eq_shortcut _ _ _).1]
      exact shortcut_paired htoken false false ha hb
    | or =>
      rw [(connect_eq_shortcut _ _ _).2.1, (connect_eq_shortcut _ _ _).2.1]
      exact shortcut_paired htoken true true ha hb
    | implies =>
      rw [(connect_eq_shortcut _ _ _).2.2, (connect_eq_shortcut _ _ _).2.2]
      exact shortcut_paired htoken false true ha hb
  · cases op <;> exact .none

/-- The result of an operation on integers and truth values. -/
theorem apply_paired (op : Builtin) (h : P.RelAll n args args') :
    Option.Rel (P.Rel n) (Term.primitives.apply op args) (Term.primitives.apply op args') := by
  have hint {t u : Term} (h : P.Rel n t u) : Term.primitives.int? t = Term.primitives.int? u :=
    Term.intValue?_congr (P.beq h)
  cases op with
  | connective op => exact connect_paired htoken op h
  | arithmetic op =>
    rcases h with _ | ⟨ha, _ | ⟨hb, _ | _⟩⟩ <;> try exact .none
    unfold apply
    dsimp only
    rw [hint ha, hint hb]
    rcases Term.primitives.int? _ with _ | x
    · exact .none
    rcases Term.primitives.int? _ with _ | y
    · exact .none
    dsimp only [Option.bind_eq_bind, Option.bind_some]
    rcases op.apply x y with _ | z
    · exact .none
    · exact .some (htoken _ _)
  | comparison op =>
    rcases h with _ | ⟨ha, _ | ⟨hb, _ | _⟩⟩ <;> try exact .none
    unfold apply
    dsimp only
    rw [hint ha, hint hb]
    rcases Term.primitives.int? _ with _ | x
    · exact .none
    rcases Term.primitives.int? _ with _ | y
    · exact .none
    · exact .some (htoken _ _)
  | _ => exact .none

end Primitives

namespace Builtin

theorem access?_pair (op : Builtin) (ha : P.Rel n a a') (hb : P.Rel n b b') :
    Option.Rel (P.Rel n) (op.access? [a, b]) (op.access? [a', b']) := by
  have haalike := P.alike ha
  have hbalike := P.alike hb
  unfold access?
  cases op with
  | mapValue =>
    dsimp only
    rw [Term.isGround_congr (P.beq hb)]
    generalize a.node = x, a'.node = y at haalike
    cases haalike with
    | map hes _ =>
      dsimp only
      split
      · exact SortedList.get?_paired hes (P.beq hb)
      · exact .none
    | _ => exact .none
  | setMember =>
    dsimp only
    rw [Term.isGround_congr (P.beq ha)]
    generalize b.node = x, b'.node = y at hbalike
    cases hbalike with
    | set hes hbase =>
      dsimp only
      rw [contains_paired hes (P.beq ha), PairedLists.isEmpty_eq hbase]
      split
      · exact .none
      split
      · exact .some (htoken _ _)
      split
      · exact .some (htoken _ _)
      · exact .none
    | _ => exact .none
  | listItem =>
    dsimp only
    rw [Term.intValue?_congr (P.beq hb)]
    generalize a.node = x, a'.node = y at haalike
    cases haalike with
    | list hitems hbase _ =>
      dsimp only
      rw [PairedLists.isEmpty_eq hbase]
      rcases b'.intValue? with _ | i
      · exact .none
      · dsimp only [Option.bind_some]
        split
        · exact Lookup.itemAt?_paired hitems i
        · exact .none
    | _ => exact .none
  | _ => exact .none

theorem access?_paired (op : Builtin) (h : P.RelAll n args args') :
    Option.Rel (P.Rel n) (op.access? args) (op.access? args') := by
  rcases h with _ | ⟨ha, _ | ⟨hb, _ | _⟩⟩
  case cons.cons.nil => exact access?_pair htoken op ha hb
  all_goals cases op <;> exact .none

end Builtin

end Values

namespace Builtin
variable {args args' : List Term} {a a' b b' : Term}

theorem coupled_decideEqual? (functions : List String) (ha : C.Rel n a a') (hb : C.Rel n b b') :
    C.Runs n (fun _ => Eq) (decideEqual? functions a b) (decideEqual? functions a' b') := by
  have hall : ([a, b].all fun t => t.isGround && !t.mentions functions) =
      [a', b'].all fun t => t.isGround && !t.mentions functions := by
    have hpair : C.RelAll n [a, b] [a', b'] := .cons ha (.cons hb .nil)
    refine PairedLists.all_eq (hpair.imp fun t u h => ?_)
    rw [Term.isGround_congr (C.beq h), Term.mentions_congr functions (C.beq h)]
  unfold decideEqual?
  rw [Term.beq_congr (C.beq ha) (C.beq hb), hall]
  refine Pairing.ite (fun _ => C.pure rfl) fun _ => Pairing.ite (fun _ => C.pure rfl) fun _ => ?_
  refine C.bind (Formula.coupled_add (.truth functions) ha hb) fun k f g _ hf => C.pure ?_
  rw [hf.isFalse]

/-- A built-in operation gives related results. -/
theorem coupled_apply (functions : List String) (op : Builtin) (h : C.RelAll n args args') :
    C.Runs n (fun k => Option.Rel (C.Rel k)) (op.apply functions args) (op.apply functions args') := by
  have hother : C.Runs n (fun k => Option.Rel (C.Rel k)) (pure (Term.primitives.apply op args <|> op.access? args))
      (pure (Term.primitives.apply op args' <|> op.access? args')) := by
    have htoken (s : SortName) (v : String) : C.Rel n (.token s v) (.token s v) := C.canonical rfl .token
    have hprimitive := Primitives.apply_paired htoken op h
    have haccess := access?_paired htoken op h
    refine C.pure ?_
    generalize Term.primitives.apply op args = o, Term.primitives.apply op args' = o' at hprimitive
    cases hprimitive with
    | none => exact haccess
    | some h => exact .some h
  cases op with
  | equality wanted =>
    rcases h with _ | ⟨ha, _ | ⟨hb, _ | _⟩⟩
    · exact hother
    · exact hother
    · refine C.bind (coupled_decideEqual? functions ha hb) fun k o o' _ ho => C.pure ?_
      rw [ho]
      cases o' with
      | none => exact .none
      | some eq => exact .some (C.canonical rfl .token)
    · exact hother
  | _ => exact hother

end Builtin

/-! ### Rules -/

/-- The rule says the same in both runs. -/
structure Rule.Coupled (C : Coupling) (r : Rule) : Prop where
  left : C.Rel C.base r.left r.left
  right : C.Rel C.base r.right r.right
  requires : C.RelAll C.base r.requires r.requires
  lookups : r.lookups.Coupled C C.base r.lookups

/-- Both attempts come to the same. -/
inductive Attempt.Coupled (C : Coupling) (n : Nat) : Attempt → Attempt → Prop where
  | applied {t u : Term} (h : C.Rel n t u) : Coupled C n (applied t) (applied u)
  | notApplicable : Coupled C n notApplicable notApplicable
  | undecided : Coupled C n undecided undecided

theorem Budget.coupled_spend : Runs C n (fun _ => Eq) Budget.spend Budget.spend := by
  intro b a c k _ hrun
  rcases hfuel : b.fuel with _ | fuel
  · rw [Evaluator.spend_of_fuel_zero hfuel] at hrun
    cases hrun
    refine ⟨Nat.le_refl n, fun hc => (C.allowance.spend_zero hfuel hc).1, false, rfl, fun b' hb hc => ?_⟩
    obtain ⟨hfuel', hb'⟩ := (C.allowance.spend_zero hfuel hc).2 b' hb
    exact ⟨_, Evaluator.spend_of_fuel_zero hfuel', hb'⟩
  · rw [Evaluator.spend_of_fuel_succ hfuel] at hrun
    cases hrun
    refine ⟨Nat.le_refl n, fun hc => (C.allowance.spend_succ hfuel hc).1, true, rfl, fun b' hb hc => ?_⟩
    obtain ⟨fuel', hfuel', hb'⟩ := (C.allowance.spend_succ hfuel hc).2 b' hb
    exact ⟨_, Evaluator.spend_of_fuel_succ hfuel', hb'⟩

namespace Evaluator
variable {e : Evaluator} {r : Rule} {t u : Term}

/-- Every rule that evaluation uses says the same in both runs. -/
def Coupled (C : Coupling) (e : Evaluator) : Prop := ∀ r ∈ e.equations, r.Coupled C

/-- Arguments that may be those of one instance may be so in both runs. -/
theorem coupled_mayUnifyAll {ps ps' args args' : List Term} (hps : C.RelAll n ps ps') (hargs : C.RelAll n args args') :
    C.Runs n (fun _ => Eq)
      (do
        if ps.length != args.length then return false
        if args.all fun t => t.isGround && !t.mentions e.functions then return false
        let equations ← (ps.zip args).mapM fun (p, t) => return (← apart p, t)
        let f ← (Formula.truth e.functions).addEquations equations
        return !(← f.simplify).isFalse)
      (do
        if ps'.length != args'.length then return false
        if args'.all fun t => t.isGround && !t.mentions e.functions then return false
        let equations ← (ps'.zip args').mapM fun (p, t) => return (← apart p, t)
        let f ← (Formula.truth e.functions).addEquations equations
        return !(← f.simplify).isFalse) := by
  have hall : (args.all fun t => t.isGround && !t.mentions e.functions) =
      args'.all fun t => t.isGround && !t.mentions e.functions := by
    refine PairedLists.all_eq (hargs.imp fun t u h => ?_)
    rw [Term.isGround_congr (C.beq h), Term.mentions_congr e.functions (C.beq h)]
  rw [hps.length_eq, hargs.length_eq, hall]
  refine Pairing.ite (fun _ => C.pure rfl) fun _ => Pairing.ite (fun _ => C.pure rfl) fun _ => ?_
  have hequations (k : Nat) (_ : n ≤ k) (e e' : Term × Term) (he : Matching.RelPair C k e e') :
      C.Runs k (Matching.RelPair C) (do return (← apart e.1, e.2)) (do return (← apart e'.1, e'.2)) :=
    C.bind (Term.coupled_rename _ he.1) fun _ _ _ hi hp => C.pure ⟨hp, C.rel_mono hi he.2⟩
  refine C.bind (RuleCompiler.Coupled.mapM (m := Build) (R := Matching.RelPair C) (T := Matching.RelPair C)
    Matching.RelPair.mono Matching.RelPair.mono (Matching.relPair_zip hps hargs) fun k hk e _ e' he =>
      hequations k hk e e' he) fun k es es' _ hes => ?_
  refine C.bind (Formula.coupled_addEquations (.truth e.functions) hes) fun i f g _ hf => ?_
  refine C.bind (Formula.coupled_simplify hf) fun j f g _ hf => C.pure ?_
  rw [hf.isFalse]

theorem coupled_mayUnify {p q : Term} (hp : C.Rel n p q) (ht : C.Rel n t u) :
    C.Runs n (fun _ => Eq) (e.mayUnify p t) (e.mayUnify q u) := by
  have hpalike := C.alike hp
  have halike := C.alike ht
  unfold mayUnify
  generalize p.node = a, q.node = a' at hpalike
  generalize t.node = b, u.node = b' at halike
  cases hpalike with
  | app hps =>
    cases halike with
    | app has => exact coupled_mayUnifyAll hps has
    | freezer _ has => exact coupled_mayUnifyAll hps has
    | _ => exact C.pure rfl
  | freezer _ hps =>
    cases halike with
    | app has => exact coupled_mayUnifyAll hps has
    | freezer _ has => exact coupled_mayUnifyAll hps has
    | _ => exact C.pure rfl
  | _ => exact C.pure rfl

theorem coupled_formulaOf (functions : List String) (hr : r.Coupled C) (hn : C.base ≤ n) {σ τ : Substitution}
    (h : σ.Coupled C n τ) : C.Runs n (Formula.Coupled C) (formulaOf functions r σ) (formulaOf functions r τ) :=
  C.bind (Formula.coupled_addAll (.ofSubstitution h functions) (hr.lookups.mono hn)) fun _ _ _ _ hf =>
    Formula.coupled_simplify hf

theorem coupled_applyBuiltin (label : String) {args args' : List Term} (h : C.RelAll n args args') :
    C.Runs n (fun k => Option.Rel (C.Rel k)) (e.applyBuiltin label args) (e.applyBuiltin label args') := by
  unfold applyBuiltin
  cases e.signature.builtin? label with
  | none => exact C.pure .none
  | some op => exact op.coupled_apply e.functions h

section Step
variable {go go' : Term → Evaluation Term}
  (hgo : ∀ k t u, n ≤ k → C.Rel k t u → Runs C k C.Rel (go t) (go' u))
include hgo

theorem coupled_holds (ht : C.Rel n t u) : Runs C n (fun _ => Eq) (holds go t) (holds go' u) :=
  Coupled.bind (hgo n t u (Nat.le_refl n) ht) fun _ _ _ _ h => Coupled.pure (Term.boolValue?_congr (C.beq h))

theorem coupled_allHold {f g : Formula} (hf : f.Coupled C n g) {cs ds : List Term} (h : C.RelAll n cs ds) :
    Runs C n (fun _ => Eq) (allHold go f cs) (allHold go' g ds) := by
  suffices hall : ∀ k, n ≤ k → Runs C k (fun _ => Eq) (allHold go f cs) (allHold go' g ds) from hall n (Nat.le_refl n)
  induction h with
  | nil => exact fun _ _ => Coupled.pure rfl
  | cons hc _ ih =>
    intro k hk
    unfold allHold
    refine Coupled.bind (Coupled.lift ((hf.mono hk).apply (C.rel_mono hk hc))) fun i c d hi hcd => ?_
    refine Coupled.bind (coupled_holds (fun j t u hj => hgo j t u (by omega)) hcd) fun j o o' hj ho => ?_
    rw [ho]
    split
    · exact ih j (by omega)
    · exact Coupled.pure rfl

theorem coupled_attemptMatches (functions : List String) (hr : r.Coupled C) (hn : C.base ≤ n)
    {σs τs : List Substitution} (h : List.Forall₂ (Substitution.Coupled C n) σs τs) (undecided : Bool) :
    Runs C n (Attempt.Coupled C) (attemptMatches go functions r undecided σs)
      (attemptMatches go' functions r undecided τs) := by
  suffices hall : ∀ k, n ≤ k → ∀ undecided, Runs C k (Attempt.Coupled C) (attemptMatches go functions r undecided σs)
      (attemptMatches go' functions r undecided τs) from hall n (Nat.le_refl n) undecided
  induction h with
  | nil =>
    intro k _ undecided
    refine Coupled.pure ?_
    split
    · exact .undecided
    · exact .notApplicable
  | cons hσ _ ih =>
    intro k hk undecided
    unfold attemptMatches
    have hformula := coupled_formulaOf functions hr (Nat.le_trans hn hk) (hσ.mono hk)
    refine Coupled.bind (Coupled.lift hformula) fun i f g hi hf => ?_
    rw [hf.isFalse, hf.isSolved]
    refine Coupled.ite (fun _ => ih i (by omega) undecided) fun _ => ?_
    refine Coupled.ite (fun _ => ih i (by omega) true) fun _ => ?_
    have hrequires : C.RelAll i r.requires r.requires := Pairing.RelAll.mono (by omega) hr.requires
    refine Coupled.bind (coupled_allHold (fun j t u hj => hgo j t u (by omega)) hf hrequires) fun j o o' hj ho => ?_
    rw [ho]
    split
    · refine Coupled.bind (Coupled.lift ((hf.mono hj).apply (C.rel_mono (by omega) hr.right))) fun l t u _ htu => ?_
      exact Coupled.pure (.applied htu)
    · exact ih j (by omega) undecided
    · exact ih j (by omega) true

theorem coupled_attempt (hr : r.Coupled C) (hn : C.base ≤ n) (ht : C.Rel n t u) :
    Runs C n (Attempt.Coupled C) (attempt go e r t) (attempt go' e r u) := by
  have hleft := C.rel_mono hn hr.left
  unfold attempt
  refine Coupled.bind (Coupled.lift (Matching.coupled_matchAll hleft ht)) fun k σs τs hk hσs => ?_
  cases hσs with
  | nil =>
    refine Coupled.bind (Coupled.lift (coupled_mayUnify (C.rel_mono hk hleft) (C.rel_mono hk ht))) fun i o o' _ ho => ?_
    rw [ho]
    refine Coupled.pure ?_
    split
    · exact .undecided
    · exact .notApplicable
  | cons hσ hσs =>
    exact coupled_attemptMatches (fun i t u hi => hgo i t u (by omega)) e.functions hr (Nat.le_trans hn hk)
      (.cons hσ hσs) false

theorem coupled_firstResult (strict : Bool) (hn : C.base ≤ n) (ht : C.Rel n t u) {rs : List Rule}
    (hrs : ∀ r ∈ rs, r.Coupled C) :
    Runs C n (fun k => Option.Rel (C.Rel k)) (firstResult go e strict t rs) (firstResult go' e strict u rs) := by
  suffices hall : ∀ k, n ≤ k → Runs C k (fun k => Option.Rel (C.Rel k)) (firstResult go e strict t rs)
      (firstResult go' e strict u rs) from hall n (Nat.le_refl n)
  induction rs with
  | nil => exact fun _ _ => Coupled.pure .none
  | cons r rs ih =>
    intro k hk
    have hrest (i : Nat) (hi : n ≤ i) := ih (fun q hq => hrs q (List.mem_cons_of_mem r hq)) i hi
    have hattempt := coupled_attempt (e := e) (fun i t u hi => hgo i t u (by omega)) (hrs r List.mem_cons_self)
      (Nat.le_trans hn hk) (C.rel_mono hk ht)
    unfold firstResult
    refine Coupled.bind hattempt fun i o o' hi ho => ?_
    cases ho with
    | applied h => exact Coupled.pure (.some h)
    | notApplicable => exact hrest i (by omega)
    | undecided => exact Coupled.ite (fun _ => Coupled.pure .none) fun _ => hrest i (by omega)

theorem coupled_rewriteCall (he : e.Coupled C) (hn : C.base ≤ n) (label : String) (ht : C.Rel n t u) :
    Runs C n (fun k => Option.Rel (C.Rel k)) (rewriteCall go e label t) (rewriteCall go' e label u) := by
  have hfunction (r : Rule) (hr : r ∈ filed label e.functionRules) : r.Coupled C := by
    refine he r ?_
    rw [equations, List.map_append]
    exact List.mem_append_left _ (mem_of_mem_filed hr)
  have hanywhere (r : Rule) (hr : r ∈ filed label e.anywhereRules) : r.Coupled C := by
    refine he r ?_
    rw [equations, List.map_append]
    exact List.mem_append_right _ (mem_of_mem_filed hr)
  unfold rewriteCall
  refine Coupled.bind (coupled_firstResult hgo true hn ht hfunction) fun k o o' hk ho => ?_
  cases ho with
  | some h => exact Coupled.pure (.some h)
  | none =>
    exact coupled_firstResult (fun i t u hi => hgo i t u (by omega)) false (Nat.le_trans hn hk) (C.rel_mono hk ht)
      hanywhere

/-- Two runs evaluate one call after its arguments. -/
theorem coupled_reduce (he : e.Coupled C) (hn : C.base ≤ n) (ht : C.Rel n t u) :
    Runs C n C.Rel (reduce go e t) (reduce go' e u) := by
  have halike := C.alike ht
  unfold reduce
  generalize t.node = a, u.node = a' at halike
  cases halike with
  | @app label _ _ _ hargs =>
    refine Coupled.bind (Coupled.lift (coupled_applyBuiltin label hargs)) fun k o o' hk ho => ?_
    cases ho with
    | some h => exact Coupled.pure h
    | none =>
      have hrewrite := coupled_rewriteCall (fun i t u hi => hgo i t u (by omega)) he (Nat.le_trans hn hk) label
        (C.rel_mono hk ht)
      refine Coupled.bind hrewrite fun i o o' hi ho => ?_
      cases ho with
      | none => exact Coupled.pure (C.rel_mono (by omega) ht)
      | some h =>
        refine Coupled.bind Budget.coupled_spend fun j o o' hj ho => ?_
        rw [ho]
        exact Coupled.ite (fun _ => hgo j _ _ (by omega) (C.rel_mono hj h))
          fun _ => Coupled.pure (C.rel_mono (by omega) ht)
  | _ => exact Coupled.pure ht

end Step

/-- Two runs evaluate related terms. The second may nest evaluations deeper, if the first is not followed where it
refuses to. -/
theorem coupled_within (he : e.Coupled C) : ∀ {depth depth' : Nat}, depth ≤ depth' →
    (depth = depth' ∨ ∀ b : Budget, ¬C.allowance.Followed { b with tooDeep := true }) →
      ∀ {n : Nat} {t u : Term}, C.base ≤ n → C.Rel n t u → Runs C n C.Rel (e.within depth t) (e.within depth' u)
  | 0, depth', _, hdeeper, n, t, u, hn, ht => by
    intro b a c k _ hrun
    cases hrun
    refine ⟨Nat.le_refl n, fun hc => (C.allowance.refuse hc).1, u, ht, fun b' hb hc => ?_⟩
    obtain rfl : 0 = depth' := hdeeper.resolve_right fun h => h b hc
    exact ⟨_, rfl, (C.allowance.refuse hc).2 b' hb⟩
  | depth + 1, depth' + 1, hd, hdeeper, n, t, u, hn, ht => by
    have hgo (k : Nat) (t u : Term) (hk : C.base ≤ k) (ht : C.Rel k t u) :=
      coupled_within he (Nat.le_of_succ_le_succ hd) (hdeeper.imp_left Nat.succ.inj) hk ht
    rw [within, within]
    refine Term.coupled_replaceUp (fun k t u hk ht => ?_) t (Nat.le_refl n) ht
    exact coupled_reduce (fun i t u hi => hgo i t u (by omega)) he (by omega) ht

end Evaluator

end RuleCompiler
