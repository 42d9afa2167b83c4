import RuleCompiler.Proofs.Coupling.Evaluation
import RuleCompiler.Proofs.Coupling.Nodes

/-! # Spare fuel

An evaluation that is refused nothing makes so many rule applications, and it makes the same ones with any other
fuel that is enough for them. -/

namespace RuleCompiler

open Coupled (Runs)

namespace Evaluation
variable {α β : Type} {n k : Nat} {b c : Budget}

theorem exists_of_bind {x : Evaluation α} {f : α → Evaluation β} {r : β} (h : (x >>= f) b n = (.ok (r, c), k)) :
    ∃ a b' m, x b n = (.ok (a, b'), m) ∧ f a b' m = (.ok (r, c), k) := by
  obtain ⟨⟨a, b'⟩, m, hrun, hrest⟩ := Build.exists_of_bind h
  exact ⟨a, b', m, hrun, hrest⟩

theorem exists_of_lift {x : Build α} {a : α} (h : (liftM x : Evaluation α) b n = (.ok (a, c), k)) :
    x n = (.ok a, k) ∧ c = b := by
  obtain ⟨a', m, hrun, hrest⟩ := Build.exists_of_bind h
  cases hrest
  exact ⟨hrun, rfl⟩

end Evaluation

namespace Budget
variable {b : Budget} {s t : Nat}

/-- The budget after so many more rule applications. -/
def spent (b : Budget) (s : Nat) : Budget := { b with fuel := b.fuel - s, steps := b.steps + s }

@[simp] theorem spent_zero : b.spent 0 = b := rfl

@[simp] theorem spent_spent : (b.spent s).spent t = b.spent (s + t) := by
  simp only [spent, Nat.sub_sub, Nat.add_assoc]

@[simp] theorem spent_fuel : (b.spent s).fuel = b.fuel - s := rfl

@[simp] theorem spent_exhausted : (b.spent s).exhausted = b.exhausted := rfl

@[simp] theorem spent_tooDeep : (b.spent s).tooDeep = b.tooDeep := rfl

end Budget

/-- Two evaluations that begin with these budgets, the first of which is followed if its fuel does not run out and
the second has enough. If `strict`, the first may not be refused for being nested too deep either. -/
def Allowance.spare (strict : Bool) (b b' : Budget) : Allowance where
  Rel c c' := ∃ s x, s ≤ b.fuel ∧ s ≤ b'.fuel ∧ c = { b.spent s with tooDeep := x } ∧
    c' = { b'.spent s with tooDeep := x }
  Followed c := c.exhausted = false ∧ (strict = true → c.tooDeep = false) ∧ b.fuel ≤ b'.fuel + c.fuel
  spend_zero _ hf := by cases hf.1
  spend_succ {c k} hc hf := by
    obtain ⟨hexhausted, hstrict, hle⟩ := hf
    refine ⟨⟨hexhausted, hstrict, by dsimp only at hle; omega⟩, ?_⟩
    rintro _ ⟨s, x, hs, hs', rfl, rfl⟩
    dsimp only [Budget.spent] at hc hle ⊢
    refine ⟨b'.fuel - (s + 1), by omega, s + 1, x, by omega, by omega, ?_, rfl⟩
    rw [show k = b.fuel - (s + 1) by omega]
    rfl
  refuse {c} hf := by
    obtain ⟨hexhausted, hstrict, hle⟩ := hf
    refine ⟨⟨hexhausted, fun h => (Bool.true_eq_false.mp (hstrict h)).elim, hle⟩, ?_⟩
    rintro _ ⟨s, x, hs, hs', rfl, rfl⟩
    exact ⟨s, true, hs, hs', rfl, rfl⟩

/-- The second evaluation makes the rule applications of the first. -/
theorem Coupled.follow {C : Coupling} {strict : Bool} {b b' c : Budget} {n k : Nat} {α β : Type}
    {R : Nat → α → β → Prop} {x : Evaluation α} {y : Evaluation β} {a : α} (hC : C.allowance = .spare strict b b')
    (h : Runs C n R x y) (hn : C.base ≤ n) (hrun : x b n = (.ok (a, c), k)) (hexhausted : c.exhausted = false)
    (hstrict : strict = true → c.tooDeep = false) (hfuel : b.fuel ≤ b'.fuel + c.fuel) (hdeep : b'.tooDeep = b.tooDeep) :
    ∃ s a', s ≤ b.fuel ∧ s ≤ b'.fuel ∧ c = { b.spent s with tooDeep := c.tooDeep } ∧
      y b' (n + C.lead) = (.ok (a', { b'.spent s with tooDeep := c.tooDeep }), k + C.lead) ∧ R k a a' := by
  obtain ⟨-, -, a', hR, hsecond⟩ := h b a c k hn hrun
  rw [hC] at hsecond
  have hbegin : C.allowance.Rel b b' := by
    rw [hC]
    exact ⟨0, b.tooDeep, Nat.zero_le _, Nat.zero_le _, rfl, by rw [← hdeep]; rfl⟩
  rw [hC] at hbegin
  obtain ⟨_, hy, s, x, hs, hs', rfl, rfl⟩ := hsecond b' hbegin
    ⟨hexhausted, hstrict, hfuel⟩
  exact ⟨s, a', hs, hs', rfl, hy, hR⟩

/-! ### Evaluators -/

/-- The terms of a rule that evaluation uses. -/
def Rule.evaluated (r : Rule) : List Term := r.left :: r.right :: (r.requires ++ r.lookups.terms)

theorem Lookup.coupled_self {C : Coupling} {n : Nat} {d : Lookup} (h : C.RelAll n d.terms d.terms) :
    d.Coupled C n d := by
  cases d with
  | mapValue =>
    rcases h with _ | ⟨hm, _ | ⟨hk, _ | ⟨hv, _⟩⟩⟩
    exact .mapValue hm hk hv
  | setMember =>
    rcases h with _ | ⟨hs, _ | ⟨he, _ | ⟨hh, _⟩⟩⟩
    exact .setMember hs he hh
  | listItem =>
    rcases h with _ | ⟨hl, _ | ⟨hi, _ | ⟨hv, _⟩⟩⟩
    exact .listItem hl hi hv
  | mapChoice =>
    rcases h with _ | ⟨hm, _ | ⟨hk, _⟩⟩
    exact .mapChoice hm hk
  | setChoice =>
    rcases h with _ | ⟨hs, _ | ⟨he, _⟩⟩
    exact .setChoice hs he

theorem Formula.coupled_self {C : Coupling} {n : Nat} {f : Formula} (h : ∀ t ∈ f.terms, C.Rel n t t) :
    f.Coupled C n f := by
  have hmem {t : Term} {ts : List Term} (ht : t ∈ ts) (hts : ts ⊆ f.terms) : C.Rel n t t := h t (hts ht)
  have hbound : f.substitution.terms ⊆ f.terms := fun t ht => List.mem_append_left _ (List.mem_append_left _ ht)
  have hequations : (f.equations.flatMap fun e => [e.1, e.2]) ⊆ f.terms :=
    fun t ht => List.mem_append_left _ (List.mem_append_right _ ht)
  have hlookups : f.lookups.flatMap (·.terms) ⊆ f.terms := fun t ht => List.mem_append_right _ ht
  refine ⟨List.forall₂_same.mpr fun b hb => ⟨rfl, ?_⟩, List.forall₂_same.mpr fun e he => ⟨?_, ?_⟩,
    List.forall₂_same.mpr fun d hd => ?_, rfl, rfl⟩
  · exact hmem (List.mem_map.mpr ⟨b, hb, rfl⟩) hbound
  · exact hmem (List.mem_flatMap.mpr ⟨e, he, by simp⟩) hequations
  · exact hmem (List.mem_flatMap.mpr ⟨e, he, by simp⟩) hequations
  · refine Lookup.coupled_self (List.forall₂_same.mpr fun t ht => ?_)
    exact hmem (List.mem_flatMap.mpr ⟨d, hd, ht⟩) hlookups

namespace Evaluator
variable {e : Evaluator} {n : Nat} {b b' c : Budget}

/-- The terms of all rules that evaluation uses. -/
def terms (e : Evaluator) : List Term := e.equations.flatMap Rule.evaluated

/-- An evaluator whose terms both runs share says the same in both. -/
theorem coupled_self {C : Coupling} (h : ∀ t ∈ e.terms, C.Rel C.base t t) : e.Coupled C := by
  intro r hr
  have hterms (t : Term) (ht : t ∈ r.evaluated) : C.Rel C.base t t := h t (List.mem_flatMap.mpr ⟨r, hr, ht⟩)
  refine ⟨hterms _ ?_, hterms _ ?_, List.forall₂_same.mpr fun t ht => hterms t ?_,
    Formula.coupled_self fun t ht => hterms t ?_⟩
  · simp [Rule.evaluated]
  · simp [Rule.evaluated]
  · simp [Rule.evaluated, ht]
  · simp [Rule.evaluated, ht]

/-- What holds of the nodes of a term and of all rules, and of all nodes that are made, holds of the nodes of the
value. -/
theorem holds_within {base depth k : Nat} {Q : Nat → Term → Prop} {t r : Term} (hQ : NodeInvariant base Q)
    (he : ∀ t ∈ e.terms, ∀ d ∈ t.nodes, Q base d) (hn : base ≤ n) (ht : ∀ d ∈ t.nodes, Q n d)
    (hrun : e.within depth t b n = (.ok (r, c), k)) : ∀ d ∈ r.nodes, Q k d := by
  let C := hQ.coupling (.spare true { fuel := 0 } { fuel := 0 })
  have hcoupled : Runs C n C.Rel (e.within depth t) (e.within depth t) :=
    coupled_within (coupled_self (C := C) fun t ht => ⟨rfl, he t ht⟩) (Nat.le_refl _) (.inl rfl) hn ⟨rfl, ht⟩
  obtain ⟨-, -, _, ⟨-, hr⟩, -⟩ := hcoupled b r c k hn hrun
  exact hr

theorem holds_rewriteCall {base depth k : Nat} {Q : Nat → Term → Prop} {t r : Term} {label : String}
    (hQ : NodeInvariant base Q) (he : ∀ t ∈ e.terms, ∀ d ∈ t.nodes, Q base d) (hn : base ≤ n)
    (ht : ∀ d ∈ t.nodes, Q n d) (hrun : rewriteCall (e.within depth) e label t b n = (.ok (some r, c), k)) :
    ∀ d ∈ r.nodes, Q k d := by
  let C := hQ.coupling (.spare true { fuel := 0 } { fuel := 0 })
  have hself : e.Coupled C := coupled_self fun t ht => ⟨rfl, he t ht⟩
  have hcoupled : Runs C n (fun k => Option.Rel (C.Rel k)) (rewriteCall (e.within depth) e label t)
      (rewriteCall (e.within depth) e label t) :=
    coupled_rewriteCall (fun k t u hk => coupled_within hself (Nat.le_refl _) (.inl rfl) (Nat.le_trans hn hk)) hself hn
      label ⟨rfl, ht⟩
  obtain ⟨-, -, _, hr, -⟩ := hcoupled b (some r) c k hn hrun
  cases hr with
  | some hr => exact hr.2

theorem true_invariant : NodeInvariant 0 fun _ _ => True :=
  ⟨fun _ _ => trivial, fun _ => trivial, fun _ _ _ => trivial, fun _ _ _ => trivial⟩

/-- A run beside itself. -/
def unchanged (allowance : Allowance) : Coupling := true_invariant.coupling allowance

theorem unchanged_self {allowance : Allowance} (n : Nat) (t : Term) : (unchanged allowance).Rel n t t :=
  ⟨rfl, fun _ _ => trivial⟩

theorem coupled_unchanged (allowance : Allowance) : e.Coupled (unchanged allowance) :=
  coupled_self fun t _ => unchanged_self 0 t

theorem within_unchanged {allowance : Allowance} (depth : Nat) (t : Term) :
    Runs (unchanged allowance) n (unchanged allowance).Rel (e.within depth t) (e.within depth t) :=
  coupled_within (coupled_unchanged allowance) (Nat.le_refl _) (.inl rfl) (Nat.zero_le _) (unchanged_self n t)

theorem go_unchanged {allowance : Allowance} (depth k : Nat) (t u : Term) (_ : n ≤ k)
    (h : (unchanged allowance).Rel k t u) :
    Runs (unchanged allowance) k (unchanged allowance).Rel (e.within depth t) (e.within depth u) := by
  obtain ⟨rfl, -⟩ := h
  exact within_unchanged depth t

theorem reduce_unchanged {allowance : Allowance} (depth : Nat) (t : Term) :
    Runs (unchanged allowance) n (unchanged allowance).Rel (reduce (e.within depth) e t)
      (reduce (e.within depth) e t) :=
  coupled_reduce (go_unchanged depth) (coupled_unchanged allowance) (Nat.zero_le _) (unchanged_self n t)

/-- With other fuel that is enough for the rule applications made the same ones are made, also where evaluations may be
nested deeper. -/
theorem within_spare {depth depth' k : Nat} {t r : Term} (b' : Budget) (strict : Bool) (hle : depth ≤ depth')
    (hdeeper : depth = depth' ∨ strict = true) (hrun : e.within depth t b n = (.ok (r, c), k))
    (hexhausted : c.exhausted = false) (hstrict : strict = true → c.tooDeep = false)
    (hfuel : b.fuel ≤ b'.fuel + c.fuel) (hdeep : b'.tooDeep = b.tooDeep) :
    ∃ s, s ≤ b.fuel ∧ s ≤ b'.fuel ∧ c = { b.spent s with tooDeep := c.tooDeep } ∧
      e.within depth' t b' n = (.ok (r, { b'.spent s with tooDeep := c.tooDeep }), k) := by
  let C := unchanged (.spare strict b b')
  have hrefused (hs : strict = true) (b : Budget) : ¬C.allowance.Followed { b with tooDeep := true } :=
    fun h => Bool.true_eq_false.mp (h.2.1 hs)
  have hcoupled : Runs C n C.Rel (e.within depth t) (e.within depth' t) :=
    coupled_within (coupled_unchanged _) hle (hdeeper.imp_right hrefused) (Nat.zero_le n) (unchanged_self n t)
  obtain ⟨s, r', hs, hs', hc, hy, rfl, -⟩ :=
    Coupled.follow (C := C) rfl hcoupled (Nat.zero_le n) hrun hexhausted hstrict hfuel hdeep
  exact ⟨s, hs, hs', hc, hy⟩

end Evaluator

end RuleCompiler
