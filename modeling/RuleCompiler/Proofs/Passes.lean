import RuleCompiler.Pass.Default
import RuleCompiler.Proofs.Matching.Bindings
import RuleCompiler.Rule.Basic

/-! # Well-formed rules

Every rule is put together by `assemble`: its sides are those of its body. With a tidy body that
makes a well-formed rule. -/

namespace RuleCompiler.Rule

open MonadAttach (CanReturn)
open Term (Tidy)

/-- The sides of the rule are those of its body, and the body is tidy. -/
structure WellFormed (b : Bool) (r : Rule) : Prop where
  body : Tidy b r.body
  left : CanReturn r.body.leftSide r.left
  right : CanReturn r.body.rightSide r.right

variable {b : Bool}

theorem WellFormed.tidy_left {r : Rule} (h : r.WellFormed b) : Tidy b r.left :=
  Term.tidy_leftSide h.body r.left h.left

theorem WellFormed.tidy_right {r : Rule} (h : r.WellFormed true) : Tidy true r.right :=
  Term.tidy_rightSide h.body r.right h.right


theorem wellFormed_assemble {kind : RuleKind} {attributes : Attributes} {body : Term}
    {requires ensures : List Term} {equations : List (Term × Term)} (h : Tidy b body) :
    Returns (WellFormed b) (assemble kind attributes body requires ensures equations) := by
  refine (Term.tidy_freeze h).bind fun body hbody => ?_
  refine .bind' fun requires => .bind' fun ensures => ?_
  refine (Returns.self _).bind fun left hleft => (Returns.self _).bind fun right hright => ?_
  exact .bind' fun _ => .bind' fun _ => .pure ⟨hbody, hleft, hright⟩

theorem wellFormed_map {m : Type → Type} [Monad m] [LawfulMonad m] [MonadAttach m]
    [LawfulMonadAttach m] [MonadLiftT Build m] [LawfulMonadLiftT Build m] {f : Term → m Term}
    {r : Rule} (h : Returns (Tidy b) (f r.body)) : Returns (WellFormed b) (r.map f) := by
  refine h.bind fun body hbody => .bind' fun requires => .bind' fun ensures => ?_
  exact .bind' fun equations => .lift (wellFormed_assemble hbody)

theorem wellFormed_rename {names : List (Var × Var)} {r : Rule} (h : r.WellFormed b) :
    Returns (WellFormed b) (r.rename names) :=
  wellFormed_map (Term.tidy_rename h.body)

end RuleCompiler.Rule

/-! ## Passes keep rules well formed

Every pass but the last two gives well-formed rules with tidy bodies. Partial evaluation changes
what stands to the right of a rewrite and leaves the rest alone; merging leaves the rules alone. -/

namespace RuleCompiler

open Term (Tidy)

variable {b : Bool}

/-- All rules are well formed. -/
def Definition.HasWellFormed (b : Bool) (d : Definition) : Prop := ∀ r ∈ d.rules, r.WellFormed b

/-- A pass keeps the rules well formed. -/
def Pass.KeepsWellFormed (b : Bool) (p : Pass) : Prop :=
  ∀ d : Definition, d.HasWellFormed b → Returns (fun r => r.1.HasWellFormed b) (p.run d)

/-! ### One rule at a time -/

/-- What is left of a rule is well formed. -/
def RuleOutcome.LeavesWellFormed (b : Bool) (r : Rule) (o : RuleOutcome) : Prop :=
  ∀ r', o.rule? r = some r' → r'.WellFormed b

namespace RuleOutcome
variable {r r' : Rule}

theorem leaves_kept (h : r.WellFormed b) : LeavesWellFormed b r kept := by
  rintro _ ⟨⟩
  exact h

theorem leaves_changed (h : r'.WellFormed b) : LeavesWellFormed b r (changed r') := by
  rintro _ ⟨⟩
  exact h

theorem leaves_dropped (d : Diagnostic) : LeavesWellFormed b r (dropped d) := by
  rintro _ ⟨⟩

theorem leaves_ofRule (h : r.WellFormed b) (h' : r'.WellFormed b) :
    LeavesWellFormed b r (ofRule r r') := by
  unfold ofRule
  split
  · exact leaves_kept h
  · exact leaves_changed h'

theorem leaves_ofOption {o : Option Rule} (h : r.WellFormed b)
    (ho : ∀ r', o = some r' → r'.WellFormed b) : LeavesWellFormed b r (ofOption o) := by
  cases o with
  | none => exact leaves_kept h
  | some r' => exact leaves_changed (ho r' rfl)

end RuleOutcome

theorem Definition.wellFormed_eachRule {d : Definition} {f : Rule → SessionM RuleOutcome}
    (h : ∀ r ∈ d.rules, Returns (RuleOutcome.LeavesWellFormed b r) (f r)) :
    Returns (fun e => e.1.HasWellFormed b) (d.eachRule f) := by
  have hrules : Returns (fun os : List (Rule × RuleOutcome) =>
      ∀ e ∈ os, RuleOutcome.LeavesWellFormed b e.1 e.2) (d.rules.mapM fun r => do
        let outcome ← f r
        outcome.report
        return (r, outcome)) :=
    .mapM_all fun r hr => (h r hr).bind fun o ho => .bind' fun _ => .pure ho
  refine hrules.bind fun os hos => .pure fun r hr => ?_
  obtain ⟨e, he, hr⟩ := List.mem_filterMap.mp hr
  exact hos e he r hr

/-! ### Rewrite lifting -/

namespace Term

theorem tidy_liftRewrites {t : Term} (h : Tidy true t) : Returns (Tidy true) t.liftRewrites := by
  induction t using Term.induction with
  | h t ih =>
    rw [liftRewrites, fold_eq, ← liftRewrites]
    dsimp only
    split
    · exact .pure h
    · rename_i cs frames hn
      have hcs := (CellParts.holds_of_node (n := 0) (k := 0) (tidy_kept true) hn h).contents
      refine Returns.bind (q := fun cs : List Cell => ∀ c ∈ cs, Tidy true c.content)
        (.mapM_all fun e hmem => ?_) fun cs hcs => ?_
      · obtain ⟨c, lifted⟩ := e
        obtain ⟨hc, hl⟩ := List.of_mem_zip hmem
        obtain ⟨u, hu, rfl⟩ := List.mem_map.mp hl
        have hut : Tidy true u := tidy_child h (by rwa [sides_true])
        exact .ite (fun _ => (ih u hu hut).bind fun v hv => .pure hv) fun _ => .pure (hcs c hc)
      · exact .of_from fun k =>
          CellParts.kept_build (tidy_kept true) (Nat.le_refl k) ⟨hcs, fun _ _ => trivial⟩
    · refine (tidy_leftSide h).bind fun l hl => (tidy_rightSide h).bind fun r hr => ?_
      exact tidy_newRewrite hl fun _ => hr

end Term

theorem wellFormed_liftRule (functions : List String) {r : Rule} (h : r.WellFormed true) :
    Returns (RuleOutcome.LeavesWellFormed true r) (liftRule functions r) := by
  unfold liftRule
  split
  · exact .pure (RuleOutcome.leaves_dropped _)
  · refine (Term.tidy_liftRewrites h.body).bind fun body hbody => ?_
    refine .ite (fun _ => .pure (RuleOutcome.leaves_kept h)) fun _ => ?_
    exact (Rule.wellFormed_assemble hbody).bind fun r' hr' => .pure (RuleOutcome.leaves_changed hr')

theorem Pass.rewriteLifting_keeps : rewriteLifting.KeepsWellFormed true := fun _ h =>
  Definition.wellFormed_eachRule fun r hr => .lift (wellFormed_liftRule _ (h r hr))

/-! ### Operators, lookups and names -/

namespace Term

theorem tidy_flattenNode (labels : LabelTable) {t : Term} (h : Tidy true t) :
    Returns (Tidy true) (flattenNode labels t) := by
  unfold flattenNode
  split
  · rename_i l args s hn
    split
    · rename_i ops _
      refine Returns.bind (q := ListParts.Holds (Tidy true)) ?_ fun p hp =>
        .of_from fun k => ListParts.kept_build (tidy_kept true) (Nat.le_refl k) hp
      refine .foldlM (ListParts.holds_empty _ ops) fun p hp c hc =>
        .of_from fun k => ListParts.kept_concat (tidy_kept true) (Nat.le_refl k) hp (tidy_child h ?_)
      rw [sides_true, children, hn]
      exact hc
    · exact .pure h
  · exact .pure h

theorem tidy_flatten (labels : LabelTable) {t : Term} (h : Tidy true t) :
    Returns (Tidy true) (t.flatten labels) :=
  tidy_replaceUp (fun _ => tidy_flattenNode labels) t h

end Term

theorem Pass.operatorFlattening_keeps : operatorFlattening.KeepsWellFormed true := fun d h =>
  Definition.wellFormed_eachRule fun r hr => by
    have hflat := Term.tidy_flatten d.signature.labels (h r hr).body
    refine Returns.bind (.lift (Rule.wellFormed_map hflat)) fun r' hr' => .pure ?_
    exact RuleOutcome.leaves_ofRule (h r hr) hr'

theorem Pass.lookups_keeps : lookups.KeepsWellFormed b := fun _ h =>
  Definition.wellFormed_eachRule fun r hr => by
    have hconvert : Returns (fun o => ∀ r', o = some r' → r'.WellFormed b) r.convertLookups? := by
      unfold Rule.convertLookups?
      refine .bind' fun conditions => ?_
      split
      · exact .pure fun _ h => by cases h
      · refine (Rule.wellFormed_assemble (h r hr).body).bind fun r' hr' => .pure ?_
        rintro _ ⟨⟩
        exact hr'
    exact Returns.bind (.lift hconvert) fun o ho => .pure (RuleOutcome.leaves_ofOption (h r hr) ho)

theorem Rule.wellFormed_renameFresh {before : String} {r : Rule} (h : r.WellFormed b) :
    Returns (Rule.WellFormed b) (r.renameFresh before) :=
  .bind' fun _ => .lift (wellFormed_rename h)

theorem Pass.freshNaming_keeps : freshNaming.KeepsWellFormed b := fun _ h =>
  .bind' fun _ => Definition.wellFormed_eachRule fun r hr => by
    split
    · exact (Rule.wellFormed_renameFresh (h r hr)).bind fun r' hr' =>
        .pure (RuleOutcome.leaves_changed hr')
    · exact .pure (RuleOutcome.leaves_kept (h r hr))

theorem Rule.wellFormed_markSingles? {r : Rule} (h : r.WellFormed b) :
    Returns (fun o => ∀ r', o = some r' → r'.WellFormed b) r.markSingles? := by
  unfold markSingles?
  refine .ite (fun _ => .pure fun _ h => by cases h) fun _ => ?_
  refine (Term.tidy_newVar b _).bind fun mark hmark => ?_
  have hmap : Returns (Rule.WellFormed b) (r.map (Term.substitute fun v =>
      if r.singleVariables.contains v then some mark else none)) := by
    refine wellFormed_map (Term.tidy_substitute (fun v u hu => ?_) h.body)
    split at hu <;> cases hu
    exact hmark
  refine hmap.bind fun r' hr' => .pure ?_
  rintro _ ⟨⟩
  exact hr'

theorem Pass.singleVariables_keeps : singleVariables.KeepsWellFormed b := fun _ h =>
  Definition.wellFormed_eachRule fun r hr => by
    refine .ite (fun _ => ?_) fun _ => .pure (RuleOutcome.leaves_kept (h r hr))
    refine Returns.bind (.lift (Rule.wellFormed_markSingles? (h r hr))) fun o ho => .pure ?_
    exact RuleOutcome.leaves_ofOption (h r hr) ho

/-! ### Expansion -/

namespace Expander

/-- The bodies of the expansion rules are tidy. -/
def IsTidy (e : Expander) : Prop := ∀ r ∈ e.rules, r.WellFormed true

theorem tidy_apply {σ : Substitution} {t : Term} (hσ : ∀ v u, σ.get? v = some u → Tidy b u)
    (ht : Tidy b t) : Returns (Tidy b) (σ.apply t) :=
  Term.tidy_substitute hσ ht

variable {e : Expander} {t : Term}

theorem tidy_expandNode? (he : e.IsTidy) (h : Tidy true t) :
    Returns (fun o => ∀ t', o = some t' → Tidy true t') (e.expandNode? t) := by
  refine .findSomeM? fun r hr => ?_
  refine Returns.bind (.of_from fun n => matchAll_passesOn (Term.tidy_passesOn n) h) fun σs hσs => .findSomeM? fun σ hσ => ?_
  refine .bind' fun enabled => .ite (fun _ => ?_) fun _ => .pure fun _ h => by cases h
  refine (tidy_apply (fun v u hu => (hσs σ hσ v u hu).1) (he r hr).tidy_right).bind fun t' ht' => .pure ?_
  rintro _ ⟨⟩
  exact ht'

theorem tidy_round (he : e.IsTidy) (h : Tidy true t) : Returns (Tidy true) (e.round t) := by
  refine Term.tidy_replaceDown (fun u hu => ?_) t h
  refine Returns.bind (.lift (tidy_expandNode? he hu)) fun o ho => ?_
  exact .ite (fun _ => .bind' fun _ => .pure ho) fun _ => .pure ho

theorem tidy_rounds (he : e.IsTidy) :
    ∀ (n steps : Nat) {t : Term}, Tidy true t →
      Returns (fun r => ∀ t', r = .ok t' → Tidy true t') (e.rounds n steps t) := by
  have hok {t : Term} (h : Tidy true t) :
      Returns (fun r => ∀ t', r = .ok t' → Tidy true t') (pure (.ok t) : Build (Except Nat Term)) := by
    refine .pure ?_
    rintro _ ⟨⟩
    exact h
  intro n
  induction n with
  | zero =>
    intro steps t h
    rw [rounds]
    refine ((tidy_round he h).run 0).bind fun _ _ => .ite (fun _ => hok h) fun _ => ?_
    exact .ite (fun _ => .pure fun _ h => by cases h) fun _ => hok h
  | succ n ih =>
    intro steps t h
    rw [rounds]
    refine ((tidy_round he h).run 0).bind fun r hr => .ite (fun _ => hok h) fun _ => ?_
    exact .ite (fun _ => .pure fun _ h => by cases h) fun _ => ih _ hr

theorem tidy_expandOrKeep (he : e.IsTidy) (h : Tidy true t) :
    Returns (Tidy true) (e.expandOrKeep t) := by
  refine Returns.bind (.lift (tidy_rounds he e.limit 0 h)) fun r hr => ?_
  split
  · exact .pure (hr _ rfl)
  · exact .bind' fun _ => .pure h

theorem wellFormed_expandRule (he : e.IsTidy) {r : Rule} (h : r.WellFormed true) :
    Returns (RuleOutcome.LeavesWellFormed true r) (e.expandRule r) := by
  refine .ite (fun _ => .pure (RuleOutcome.leaves_kept h)) fun _ => ?_
  have hmap := (Rule.wellFormed_map (tidy_expandOrKeep he h.body)).run none
  refine hmap.bind fun r' hr' => ?_
  split
  · exact .pure (RuleOutcome.leaves_dropped _)
  · exact .pure (RuleOutcome.leaves_ofRule h hr')

end Expander

theorem Pass.expansion_keeps : expansion.KeepsWellFormed true := fun d h => by
  have he (limit : Nat) : (d.expander limit).IsTidy := fun r hr => h r (List.mem_filter.mp hr).1
  refine .bind' fun _ => .ite (fun _ => .pure h) fun _ => ?_
  exact Definition.wellFormed_eachRule fun r hr => .lift (Expander.wellFormed_expandRule (he _) (h r hr))

/-! ### Partial evaluation -/

namespace Evaluator

/-- Evaluation of the right sides leaves the left sides tidy. -/
theorem tidy_evaluateRights (e : Evaluator) {t : Term} (h : Tidy false t) :
    Returns (Tidy false) (e.evaluateRights t) := by
  refine Term.tidy_replaceDown (fun u hu => ?_) t h
  split
  · rename_i l r hn
    have hl : Tidy false l := Term.tidy_child hu (by simp [Term.sides, hn])
    refine .bind' fun r' => ?_
    have hnew : Returns (Tidy false) (Term.rewrite l r') := Term.tidy_newRewrite hl fun h => by cases h
    have hdone (t : Term) (ht : Tidy false t) :
        Returns (fun o => ∀ t', o = some t' → Tidy false t') (pure (some t) : Evaluation _) := by
      refine .pure ?_
      rintro _ ⟨⟩
      exact ht
    exact .ite (fun _ => (Returns.pure hu).bind hdone) fun _ => hnew.lift.bind hdone
  · exact .pure fun _ h => by cases h

theorem wellFormed_evaluateRule? (e : Evaluator) {r : Rule} (h : r.WellFormed false) :
    Returns (fun o => ∀ r', o = some r' → r'.WellFormed false) (e.evaluateRule? r) := by
  refine (tidy_evaluateRights e h.body).bind fun body hbody => ?_
  refine .bind' fun requires => .bind' fun ensures => .ite (fun _ => ?_) fun _ => ?_
  · exact .pure fun _ h => by cases h
  · refine Returns.bind (.lift (Rule.wellFormed_assemble hbody)) fun r' hr' => .pure ?_
    rintro _ ⟨⟩
    exact hr'

end Evaluator

namespace Definition

theorem wellFormed_evaluateRules {d : Definition} (h : d.HasWellFormed false)
    (chosen : RuleKind → Bool) (fuel : Nat) :
    Returns (fun r => ∀ o ∈ r.1, ∀ r', o = some r' → r'.WellFormed false)
      (d.evaluateRules chosen fuel) := by
  have hrules : Returns (fun rs : List (Option Rule × Budget) =>
      ∀ e ∈ rs, ∀ r', e.1 = some r' → r'.WellFormed false)
      (d.rules.mapM fun r =>
        if chosen r.kind then (d.evaluator.evaluateRule? r).run { fuel }
        else return (none, { fuel })) := by
    refine .mapM_all fun r hr => .ite (fun _ => ?_) fun _ => .pure fun _ h => by cases h
    exact (Evaluator.wellFormed_evaluateRule? _ (h r hr)).run _
  refine hrules.bind fun rs hrs => .pure fun o ho => ?_
  obtain ⟨e, he, rfl⟩ := List.mem_map.mp ho
  exact hrs e he

theorem wellFormed_replaceRules {d : Definition} (h : d.HasWellFormed b)
    {changes : List (Option Rule)} (hc : ∀ o ∈ changes, ∀ r', o = some r' → r'.WellFormed b)
    {f : Rule → SessionM Rule} (hf : ∀ r, r.WellFormed b → Returns (Rule.WellFormed b) (f r)) :
    Returns (HasWellFormed b) (d.replaceRules changes f) := by
  refine Returns.bind (.mapM_all fun ⟨r, o⟩ hr => ?_) fun rules hrules => .pure hrules
  obtain ⟨hrule, hchange⟩ := List.of_mem_zip hr
  cases o with
  | some r' => exact hf r' (hc _ hchange r' rfl)
  | none => exact .pure (h r hrule)

theorem wellFormed_evaluateEquations (fuel : Nat) :
    ∀ (n : Nat) {rounds : Rounds}, rounds.definition.HasWellFormed false →
      Returns (fun r => r.definition.HasWellFormed false) (evaluateEquations fuel n rounds) := by
  intro n
  induction n with
  | zero => exact fun h => .pure h
  | succ n ih =>
    intro rounds h
    rw [evaluateEquations]
    refine Returns.bind (.lift (wellFormed_evaluateRules h _ fuel)) fun r hr => ?_
    dsimp only
    split
    · exact .pure h
    · refine (wellFormed_replaceRules h hr fun r hr => Rule.wellFormed_renameFresh hr).bind
        fun d hd => ih hd

end Definition

theorem Pass.partialEvaluation_keeps : partialEvaluation.KeepsWellFormed false := fun _ h => by
  refine .bind' fun s => ?_
  refine (Definition.wellFormed_evaluateEquations _ _ h).bind fun rounds hrounds => ?_
  refine .ite_bind ?_
  refine Returns.bind (.lift (Definition.wellFormed_evaluateRules hrounds _ _)) fun r hr => ?_
  refine (Definition.wellFormed_replaceRules hrounds hr fun r hr => .pure hr).bind fun d hd => ?_
  exact .ite_bind (.pure hd)

theorem Pass.merging_keeps : merging.KeepsWellFormed b := fun _ h =>
  .bind' fun _ => .ite (fun _ => .bind' fun _ => .pure h) fun _ => .pure h

end RuleCompiler
