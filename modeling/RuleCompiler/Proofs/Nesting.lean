import RuleCompiler.Proofs.Evaluation

/-! # Nested evaluations

Fuel is taken when a rule applies. The conditions of the rule are evaluated before that, and their
evaluation may ask for further conditions before any rule applies, so fuel does not bound how deep
evaluations nest. Where the conditions of equations come to an end it does. -/

namespace RuleCompiler

namespace Evaluator

/-- Evaluation with `bottom` in place of what is nested deeper than `depth`. -/
def nested (e : Evaluator) (bottom : Term → Evaluation Term) : Nat → Term → Evaluation Term
  | 0 => bottom
  | depth + 1 => fun t => t.replaceUp (reduce (nested e bottom depth) e)

/-- Give up on an evaluation that is nested too deep. -/
def refuse (t : Term) : Evaluation Term := do
  modify fun b => { b with tooDeep := true }
  return t

theorem within_eq_nested (e : Evaluator) : ∀ depth, e.within depth = e.nested refuse depth
  | 0 => rfl
  | depth + 1 => by
    funext t
    rw [within, within_eq_nested e depth, nested]

/-- Evaluation comes to an end: at some depth nothing is nested deeper. -/
def Ends (e : Evaluator) (t : Term) (b : Budget) (n : Nat) : Prop :=
  ∃ depth, ∀ bottom bottom', e.nested bottom depth t b n = e.nested bottom' depth t b n

/-! ### A condition that asks for itself -/

/-- A call without arguments. -/
def call : Term := .constant "f" .bool

theorem eq_call {t : Term} (ht : t == call) (hm : t.mark = {}) : t = call := by
  obtain ⟨m, n⟩ := t
  have halike := Term.alike_of_beq ht
  dsimp only at hm halike
  subst hm
  generalize hc : call.node = k at halike
  cases halike with
  | app h =>
    cases hc
    cases h
    rfl
  | _ => cases hc

/-- Whether the call is answered by one rule only, which asks for the call. -/
def asksItself (e : Evaluator) : Bool :=
  (e.signature.builtin? "f").isNone && (filed "f" e.anywhereRules).isEmpty &&
    match filed "f" e.functionRules with
    | [r] => r.lookups.isTrue && (r.left :: r.requires).length == 2 &&
      (r.left :: r.requires).all fun t => t == call && t.mark == {}
    | _ => false

theorem matchAll_call : matchAll call call = pure [{}] := rfl

theorem formulaOf_of_isTrue {r : Rule} (h : r.lookups.isTrue) (functions : List String) :
    formulaOf functions r {} = pure (Formula.truth functions) := by
  rw [formulaOf]
  generalize r.lookups = g at h
  obtain ⟨⟨bindings⟩, equations, lookups, isFalse, fs⟩ := g
  simp only [Formula.isTrue, Substitution.isEmpty, Bool.and_eq_true, Bool.not_eq_true',
    List.isEmpty_iff] at h
  obtain ⟨⟨⟨rfl, rfl⟩, rfl⟩, rfl⟩ := h
  rfl

variable {go : Term → Evaluation Term} {b c : Budget} {n : Nat}

theorem bind_eq {α β : Type} {x : Evaluation α} {f : α → Evaluation β} {b' : Budget} {n' : Nat} {a : α}
    (h : x b n = (.ok (a, b'), n')) : (x >>= f) b n = f a b' n' :=
  Build.bind_eq h

theorem allHold_call (functions : List String) (hgo : go call b n = (.ok (call, c), n)) :
    allHold go (Formula.truth functions) [call] b n = (.ok (none, c), n) := by
  have hholds : holds go call b n = (.ok (none, c), n) := bind_eq hgo
  have happly : (Formula.truth functions).apply call = pure call := rfl
  rw [allHold, happly, liftM_pure, pure_bind]
  exact bind_eq hholds

theorem attempt_call {r : Rule} (e : Evaluator) (hleft : r.left = call) (hrequires : r.requires = [call])
    (hlookups : r.lookups.isTrue) (hgo : go call b n = (.ok (call, c), n)) :
    attempt go e r call b n = (.ok (.undecided, c), n) := by
  have hmatches : attemptMatches go e.functions r false [{}] b n = (.ok (.undecided, c), n) := by
    have h := allHold_call e.functions hgo
    rw [attemptMatches, formulaOf_of_isTrue hlookups, hrequires, liftM_pure, pure_bind]
    exact bind_eq h
  rw [attempt, hleft, matchAll_call]
  exact hmatches

/-- Evaluations of the call do nothing but evaluate the call again. -/
theorem reduce_call {e : Evaluator} (he : e.asksItself) (hgo : go call b n = (.ok (call, c), n)) :
    reduce go e call b n = (.ok (call, c), n) := by
  simp only [asksItself, Bool.and_eq_true, List.isEmpty_iff, Option.isNone_iff_eq_none] at he
  obtain ⟨⟨hbuiltin, hanywhere⟩, he⟩ := he
  obtain ⟨r, hr⟩ : ∃ r, filed "f" e.functionRules = [r] := by
    split at he
    · exact ⟨_, ‹_›⟩
    · cases he
  rw [hr] at he
  simp only [Bool.and_eq_true, beq_iff_eq, List.all_cons, List.length_cons,
    List.all_eq_true] at he
  obtain ⟨⟨hlookups, hlen⟩, ⟨hleft, hmark⟩, hrequires⟩ := he
  obtain ⟨q, hq⟩ := List.length_eq_one_iff.mp (Nat.succ.inj hlen)
  rw [hq] at hrequires
  obtain ⟨hqcall, hqmark⟩ := hrequires q List.mem_cons_self
  have hattempt := attempt_call e (eq_call hleft hmark) (by rw [hq, eq_call hqcall hqmark]) hlookups hgo
  have hfirst : firstResult go e true call [r] b n = (.ok (none, c), n) := bind_eq hattempt
  have hrewrite : rewriteCall go e "f" call b n = (.ok (none, c), n) := by
    rw [rewriteCall, hr, hanywhere]
    exact bind_eq hfirst
  have hnone : applyBuiltin e "f" [] = pure none := by rw [applyBuiltin, hbuiltin]
  unfold reduce
  rw [show call.node = .app (.const "f") [] .bool from rfl]
  dsimp only
  rw [hnone, liftM_pure, pure_bind]
  exact bind_eq hrewrite

theorem not_ends_call {e : Evaluator} (he : e.asksItself) (b : Budget) (n : Nat) : ¬ e.Ends call b n := by
  rintro ⟨depth, h⟩
  -- what the budget becomes is left to the bottom, however deep that is
  have hbottom (c : Budget) (depth : Nat) :
      e.nested (fun t => do set c; return t) depth call b n = (.ok (call, c), n) := by
    induction depth with
    | zero => rfl
    | succ depth ih => exact reduce_call he ih
  have heq := h (fun t => do set { fuel := 0 : Budget }; return t)
    (fun t => do set { fuel := 1 : Budget }; return t)
  rw [hbottom, hbottom] at heq
  cases heq

end Evaluator

/-- A function that holds where it holds. -/
def asksItself : SourceDefinition where
  main := "M"
  modules := [{ name := "M", sentences := [
    .production { label := "f", sort := .bool, arity := 0, attributes := Attributes.flag {} "function" },
    .rule { body := .rewrite f (.bool true) {}, requires? := some f }] }]
where
  f : SourceTerm := .apply "f" [] {}

set_option maxRecDepth 100000

namespace Evaluator

/-! ### Computations that agree -/

section Agree
variable {α β : Type} {F : Nat} {x y : Evaluation α} {f g : α → Evaluation β}

/-- With so much fuel at most the computations do the same, and leave no more fuel than there was. -/
def Agree (F : Nat) (x y : Evaluation α) : Prop :=
  ∀ b n, b.fuel ≤ F → x b n = y b n ∧ ∀ a c m, x b n = (.ok (a, c), m) → c.fuel ≤ b.fuel

theorem bind_error {b : Budget} {n m : Nat} {clash : Clash} (h : x b n = (.error clash, m)) :
    (x >>= f) b n = (.error clash, m) := by
  show (match x b n with
    | (r, n) => ExceptT.bindCont (fun r : α × Budget => f r.1 r.2) r n) = _
  rw [h]
  rfl

namespace Agree

theorem pure (a : α) : Agree F (Pure.pure a) (Pure.pure a) := by
  refine fun b n _ => ⟨rfl, fun a c m h => ?_⟩
  cases h
  exact Nat.le_refl _

theorem bind_of (hx : Agree F x y)
    (hf : ∀ a b c n m, x b n = (.ok (a, c), m) → Agree F (f a) (g a)) : Agree F (x >>= f) (y >>= g) := by
  intro b n hb
  obtain ⟨heq, hle⟩ := hx b n hb
  rcases hrun : x b n with ⟨clash | ⟨a, c⟩, m⟩
  · rw [hrun] at heq
    rw [bind_error hrun, bind_error heq.symm]
    exact ⟨rfl, fun _ _ _ h => by cases h⟩
  · have hc := hle a c m hrun
    obtain ⟨heq', hle'⟩ := hf a b c n m hrun c m (Nat.le_trans hc hb)
    rw [hrun] at heq
    rw [bind_eq hrun, bind_eq heq.symm]
    exact ⟨heq', fun a' c' m' h => Nat.le_trans (hle' a' c' m' h) hc⟩

theorem bind (hx : Agree F x y) (hf : ∀ a, Agree F (f a) (g a)) : Agree F (x >>= f) (y >>= g) :=
  hx.bind_of fun a _ _ _ _ _ => hf a

theorem lift (z : Build α) : Agree F (liftM z) (liftM z) := by
  refine fun b n _ => ⟨rfl, fun a c m h => ?_⟩
  obtain ⟨a', m', -, h⟩ := Build.exists_of_bind h
  cases h
  exact Nat.le_refl _

/-- What follows on a computation that makes nodes need only agree on what this can give. -/
theorem lift_bind {z : Build α} (hf : ∀ a n m, z n = (.ok a, m) → Agree F (f a) (g a)) :
    Agree F (liftM z >>= f) (liftM z >>= g) := by
  refine (lift z).bind_of fun a b c n m h => ?_
  obtain ⟨a', m', hz, h⟩ := Build.exists_of_bind h
  cases h
  exact hf _ _ _ hz

theorem mapM {f g : β → Evaluation α} :
    ∀ {l : List β}, (∀ b ∈ l, Agree F (f b) (g b)) → Agree F (l.mapM f) (l.mapM g)
  | [], _ => by
    rw [List.mapM_nil, List.mapM_nil]
    exact pure []
  | b :: l, h => by
    rw [List.mapM_cons, List.mapM_cons]
    refine (h b List.mem_cons_self).bind fun a => ?_
    exact (mapM fun c hc => h c (List.mem_cons_of_mem b hc)).bind fun as => pure (a :: as)

end Agree

variable {visit visit' : Term → Evaluation Term}

theorem agree_update {below below' : Term → Evaluation Term} {t : Term}
    (hbelow : ∀ c ∈ t.children, Agree F (below c) (below' c)) (hvisit : ∀ u, Agree F (visit u) (visit' u)) :
    Agree F (t.update (t.children.map below) visit) (t.update (t.children.map below') visit') := by
  unfold Term.update
  rw [List.mapM_map, List.mapM_map]
  refine (Agree.lift _).bind fun start => ?_
  refine (Agree.mapM hbelow).bind fun cs => ?_
  refine (Agree.mapM fun v _ => ?_).bind fun fs => ?_
  · exact (Agree.lift _).bind fun node => (hvisit node).bind fun u => .pure (node, u)
  · split
    · exact .pure t
    · exact (Agree.lift _).bind fun t' => .pure _

theorem agree_replaceUp (hvisit : ∀ u, Agree F (visit u) (visit' u)) (t : Term) :
    Agree F (t.replaceUp visit) (t.replaceUp visit') := by
  induction t using Term.induction with
  | h t ih =>
    rw [Term.replaceUp, Term.replaceUp, Term.fold_eq, Term.fold_eq, ← Term.replaceUp, ← Term.replaceUp]
    exact (agree_update ih hvisit).bind hvisit

end Agree

/-! ### Conditions that come to an end -/

/-- The rules that evaluation uses. -/
def equations (e : Evaluator) : List Rule := (e.functionRules ++ e.anywhereRules).map (·.2)

theorem mem_of_mem_filed {label : String} {rules : List (String × Rule)} {r : Rule}
    (h : r ∈ filed label rules) : r ∈ rules.map (·.2) := by
  obtain ⟨p, hp, rfl⟩ := List.mem_map.mp h
  exact List.mem_map.mpr ⟨p, (List.mem_filter.mp hp).1, rfl⟩

section Step
variable {e : Evaluator} {F : Nat} {go go' : Term → Evaluation Term}

/-- Whatever the bindings, the instances of the conditions are evaluated in the same way. -/
def AgreeOn (F : Nat) (go go' : Term → Evaluation Term) (r : Rule) : Prop :=
  ∀ c ∈ r.requires, ∀ (f : Formula) n c' m, f.apply c n = (.ok c', m) → Agree F (go c') (go' c')

theorem agree_allHold {f : Formula} : ∀ {cs : List Term},
    (∀ c ∈ cs, ∀ n c' m, f.apply c n = (.ok c', m) → Agree F (go c') (go' c')) →
      Agree F (allHold go f cs) (allHold go' f cs)
  | [], _ => .pure _
  | c :: cs, h => by
    unfold allHold
    refine .lift_bind fun c' n m hc' => ?_
    refine Agree.bind ((h c List.mem_cons_self n c' m hc').bind fun v => .pure _) fun verdict => ?_
    split
    · exact agree_allHold fun d hd => h d (List.mem_cons_of_mem c hd)
    · exact .pure _

theorem agree_attemptMatches {functions : List String} {r : Rule} (hr : AgreeOn F go go' r)
    {σs : List Substitution} : ∀ {undecided : Bool}, Agree F (attemptMatches go functions r undecided σs)
      (attemptMatches go' functions r undecided σs) := by
  induction σs with
  | nil => exact .pure _
  | cons σ σs ih =>
    intro undecided
    unfold attemptMatches
    refine (Agree.lift _).bind fun f => ?_
    split
    · exact ih
    · split
      · exact ih
      · refine (agree_allHold fun c hc => hr c hc f).bind fun verdict => ?_
        split
        · exact (Agree.lift _).bind fun t => .pure _
        · exact ih
        · exact ih

theorem agree_attempt {r : Rule} (hr : AgreeOn F go go' r) (t : Term) :
    Agree F (attempt go e r t) (attempt go' e r t) := by
  unfold attempt
  refine (Agree.lift _).bind fun σs => ?_
  split
  · exact (Agree.lift _).bind fun may => .pure _
  · exact agree_attemptMatches hr

theorem agree_firstResult {strict : Bool} {t : Term} : ∀ {rs : List Rule},
    (∀ r ∈ rs, AgreeOn F go go' r) → Agree F (firstResult go e strict t rs) (firstResult go' e strict t rs)
  | [], _ => .pure none
  | r :: rs, h => by
    have hrest : Agree F (firstResult go e strict t rs) (firstResult go' e strict t rs) :=
      agree_firstResult fun q hq => h q (List.mem_cons_of_mem r hq)
    unfold firstResult
    refine (agree_attempt (h r List.mem_cons_self) t).bind fun outcome => ?_
    split
    · exact .pure _
    · exact hrest
    · split
      · exact .pure _
      · exact hrest

theorem spend_of_fuel_zero {b : Budget} {n : Nat} (h : b.fuel = 0) :
    Budget.spend b n = (.ok (false, { b with exhausted := true }), n) := by
  obtain ⟨fuel, steps, exhausted, tooDeep⟩ := b
  cases h
  rfl

theorem spend_of_fuel_succ {b : Budget} {n k : Nat} (h : b.fuel = k + 1) :
    Budget.spend b n = (.ok (true, { b with fuel := k, steps := b.steps + 1 }), n) := by
  obtain ⟨fuel, steps, exhausted, tooDeep⟩ := b
  cases h
  rfl

variable (he : ∀ r ∈ e.equations, AgreeOn F go go' r)
include he

theorem agree_rewriteCall (label : String) (t : Term) :
    Agree F (rewriteCall go e label t) (rewriteCall go' e label t) := by
  unfold rewriteCall
  refine (agree_firstResult fun r hr => he r ?_).bind fun o => ?_
  · rw [equations, List.map_append]
    exact List.mem_append_left _ (mem_of_mem_filed hr)
  · split
    · exact .pure _
    · refine agree_firstResult fun r hr => he r ?_
      rw [equations, List.map_append]
      exact List.mem_append_right _ (mem_of_mem_filed hr)

omit he in
/-- A rule is applied with less fuel than there was. -/
theorem agree_spend (hgo : ∀ k < F, ∀ t, Agree k (go t) (go' t)) (result t : Term) :
    Agree F (do if ← Budget.spend then go result else return t)
      (do if ← Budget.spend then go' result else return t) := by
  intro b n hb
  cases hfuel : b.fuel with
  | zero =>
    rw [bind_eq (spend_of_fuel_zero hfuel), bind_eq (spend_of_fuel_zero hfuel)]
    refine ⟨rfl, fun a c m h => ?_⟩
    cases h
    exact Nat.le_of_eq hfuel
  | succ k =>
    rw [bind_eq (spend_of_fuel_succ hfuel), bind_eq (spend_of_fuel_succ hfuel)]
    obtain ⟨heq, hle⟩ := hgo k (by omega) result { b with fuel := k, steps := b.steps + 1 } n (Nat.le_refl k)
    exact ⟨heq, fun a c m h => Nat.le_succ_of_le (hle a c m h)⟩

/-- One call is evaluated in the same way if the conditions and everything with less fuel is. -/
theorem agree_reduce (hgo : ∀ k < F, ∀ t, Agree k (go t) (go' t)) (t : Term) :
    Agree F (reduce go e t) (reduce go' e t) := by
  unfold reduce
  split
  · refine (Agree.lift _).bind fun o => ?_
    split
    · exact .pure _
    · refine (agree_rewriteCall he _ t).bind fun o => ?_
      split
      · exact agree_spend hgo _ t
      · exact .pure t
  · exact .pure t

end Step

variable {e : Evaluator} {D : Nat}

/-- Evaluation takes no more fuel than there is. -/
theorem agree_refuse (e : Evaluator) :
    ∀ depth F t, Agree F (e.nested refuse depth t) (e.nested refuse depth t)
  | 0, F, t => by
    intro b n _
    refine ⟨rfl, fun a c m h => ?_⟩
    cases h
    exact Nat.le_refl _
  | depth + 1, F, t => by
    refine agree_replaceUp (fun u => ?_) t
    exact agree_reduce (fun r _ c _ f n c' m _ => agree_refuse e depth F c')
      (fun k _ u => agree_refuse e depth k u) u

theorem nested_add (e : Evaluator) (bottom : Term → Evaluation Term) (k : Nat) :
    ∀ depth, e.nested bottom (depth + k) = e.nested (e.nested bottom k) depth
  | 0 => by rw [Nat.zero_add, nested]
  | depth + 1 => by
    funext t
    rw [Nat.succ_add, nested, nested_add e bottom k depth, nested]

/-- Evaluations of instances of conditions are nested `depth` deep at most. -/
def ConditionsEnd (e : Evaluator) (depth : Nat) : Prop :=
  ∀ r ∈ e.equations, ∀ c ∈ r.requires, ∀ (f : Formula) n c' m, f.apply c n = (.ok c', m) →
    ∀ b k bottom bottom', e.nested bottom depth c' b k = e.nested bottom' depth c' b k

theorem agree_nested (h : e.ConditionsEnd D) (bottom bottom' : Term → Evaluation Term) (F : Nat) :
    ∀ {depth : Nat}, D + F < depth → ∀ t, Agree F (e.nested bottom depth t) (e.nested bottom' depth t) := by
  induction F using Nat.strongRecOn with
  | ind F ih =>
    intro depth hdepth t
    obtain ⟨depth, rfl⟩ := Nat.exists_eq_add_one_of_ne_zero (Nat.ne_zero_of_lt hdepth)
    refine agree_replaceUp (fun u => agree_reduce (fun r hr c hc f n c' m hc' b k hb => ?_)
      (fun k hk v => ih k hk (by omega) v) u) t
    obtain ⟨extra, rfl⟩ := Nat.exists_eq_add_of_le (show D ≤ depth by omega)
    have heq (bottom bottom' : Term → Evaluation Term) :
        e.nested bottom (D + extra) c' b k = e.nested bottom' (D + extra) c' b k := by
      rw [nested_add, nested_add]
      exact h r hr c hc f n c' m hc' b k _ _
    refine ⟨heq bottom bottom', ?_⟩
    rw [heq bottom refuse]
    exact (agree_refuse e (D + extra) F c' b k hb).2

/-- With less fuel than evaluations may be nested, the limit on their nesting does not matter. -/
theorem evaluate_eq_nested (h : e.ConditionsEnd D) {b : Budget} (hb : D + b.fuel < nestingLimit)
    (bottom : Term → Evaluation Term) (t : Term) (n : Nat) :
    e.evaluate t b n = e.nested bottom nestingLimit t b n := by
  rw [evaluate, within_eq_nested]
  exact (agree_nested h refuse bottom b.fuel hb t b n (Nat.le_refl _)).1

end Evaluator

/-- Two functions that call each other. -/
def pingPong : SourceDefinition where
  main := "M"
  modules := [{ name := "M", sentences := [function "ping", function "pong",
    .rule { body := .rewrite (call "ping") (call "pong") {} },
    .rule { body := .rewrite (call "pong") (call "ping") {} }] }]
where
  function (l : String) : Sentence :=
    .production { label := l, sort := .int, arity := 0, attributes := Attributes.flag {} "function" }
  call (l : String) : SourceTerm := .apply l [] {}

end RuleCompiler
