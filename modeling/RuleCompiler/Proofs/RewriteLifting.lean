import RuleCompiler.Proofs.RewriteLifting.Lifted
import RuleCompiler.Proofs.Session

/-! # Rewrite lifting

The pass keeps the rules whose rewrites are where they may be and reports each of the others once. What it
keeps has the sides and conditions of the rule that it was, and a body in which every rewrite is the whole
body or the whole content of a cell. -/

namespace RuleCompiler

open Build (Gives)
open MonadAttach (CanReturn)

/-! ### Rewrites where they may be -/

namespace Term

/-- Whether no application of one of `functions` has a rewrite in it. -/
def HasPlainCalls (functions : List String) (t : Term) : Prop :=
  ∀ u ∈ t.subterms, u.constLabel?.any functions.contains → u.hasRewrite = false

variable {functions : List String} {t : Term}

theorem not_hasRewrite_subterm {u : Term} (h : t.hasRewrite = false) (hu : u ∈ t.subterms) :
    u.hasRewrite = false := by
  induction t using Term.induction with
  | h t ih =>
    rcases mem_subterms.mp hu with rfl | ⟨c, hc, hu⟩ | hu
    · exact h
    · exact ih c hc (hasRewrite_child h hc) hu
    · obtain ⟨v, -, rfl⟩ := List.mem_map.mp hu
      exact hasRewrite_eq_false_iff.mpr ⟨rfl, List.forall_mem_nil _⟩

theorem hasFlatRewrites_of_hasRewrite (h : t.hasRewrite = false) : t.HasFlatRewrites := by
  intro u hu l r hn
  have hr := isRewrite_of_hasRewrite (not_hasRewrite_subterm h hu)
  rw [isRewrite, hn] at hr
  cases hr

theorem hasFlatRewrites_iff : t.HasFlatRewrites ↔
    (∀ l r, t.node = .rewrite l r → l.hasRewrite = false ∧ r.hasRewrite = false) ∧
      ∀ c ∈ t.children, c.HasFlatRewrites := by
  refine ⟨fun h => ⟨fun l r hn => h.sides hn, fun c hc => h.child hc⟩, fun ⟨hself, hchildren⟩ u hu => ?_⟩
  rcases mem_subterms.mp hu with rfl | ⟨c, hc, hu⟩ | hu
  · exact hself
  · exact hchildren c hc u hu
  · obtain ⟨v, -, rfl⟩ := List.mem_map.mp hu
    rintro l r ⟨⟩

theorem hasPlainCalls_iff : t.HasPlainCalls functions ↔
    (t.constLabel?.any functions.contains → t.hasRewrite = false) ∧
      ∀ c ∈ t.children, c.HasPlainCalls functions := by
  constructor
  · intro h
    exact ⟨h t (mem_subterms.mpr (.inl rfl)),
      fun c hc u hu => h u (mem_subterms.mpr (.inr (.inl ⟨c, hc, hu⟩)))⟩
  · rintro ⟨hself, hchildren⟩ u hu
    rcases mem_subterms.mp hu with rfl | ⟨c, hc, hu⟩ | hu
    · exact hself
    · exact hchildren c hc u hu
    · obtain ⟨v, -, rfl⟩ := List.mem_map.mp hu
      rintro ⟨⟩

end Term

namespace Misplacement
variable {functions : List String} {t : Term}

theorem contains_map_true {f : Term → Bool} {ts : List Term} : (ts.map f).contains true = ts.any f := by
  rw [List.contains_eq_any_beq, List.any_map]
  exact congrArg ts.any (funext fun t => by rw [Function.comp_apply, Bool.beq_eq_decide_eq]; cases f t <;> rfl)

theorem nestedWithin_eq (t : Term) : nestedWithin functions t = match t.node with
    | .rewrite l r => l.hasRewrite || r.hasRewrite
    | _ => !t.constLabel?.any functions.contains && t.children.any (nestedWithin functions) := by
  cases hn : t.node <;> rw [nestedWithin, Term.fold_eq, hn, ← nestedWithin, contains_map_true]

theorem callWithin_eq (t : Term) : callWithin functions t = match t.node with
    | .rewrite .. => false
    | _ => if t.constLabel?.any functions.contains then t.hasRewrite
      else t.children.any (callWithin functions) := by
  cases hn : t.node <;> rw [callWithin, Term.fold_eq, hn, ← callWithin, contains_map_true]

theorem flat_rewrite_iff {l r : Term} (hn : t.node = .rewrite l r) :
    l.hasRewrite = false ∧ r.hasRewrite = false ↔
      t.HasFlatRewrites ∧ ∀ c ∈ t.children, c.HasPlainCalls functions := by
  have hchildren : t.children = [l, r] := by rw [Term.children, hn]; rfl
  refine Iff.intro ?_ fun h => h.1.sides hn
  rintro ⟨hl, hr⟩
  have hall : ∀ c ∈ t.children, c.hasRewrite = false := by
    rw [hchildren]
    intro c hc
    rcases List.mem_pair.mp hc with rfl | rfl <;> assumption
  refine ⟨Term.hasFlatRewrites_iff.mpr ⟨fun _ _ h => ?_, fun c hc => ?_⟩, fun c hc u hu _ => ?_⟩
  · cases hn.symm.trans h
    exact ⟨hl, hr⟩
  · exact Term.hasFlatRewrites_of_hasRewrite (hall c hc)
  · exact Term.not_hasRewrite_subterm (hall c hc) hu

theorem flat_children_iff (hr : ∀ l r, t.node ≠ .rewrite l r)
    (h : ∀ c ∈ t.children, nestedWithin functions c = false ∧ callWithin functions c = false ↔
      c.HasFlatRewrites ∧ c.HasPlainCalls functions) :
    t.children.any (nestedWithin functions) = false ∧ t.children.any (callWithin functions) = false ↔
      t.HasFlatRewrites ∧ ∀ c ∈ t.children, c.HasPlainCalls functions := by
  simp only [List.any_eq_false, Bool.not_eq_true, Term.hasFlatRewrites_iff (t := t)]
  constructor
  · rintro ⟨hn, hc⟩
    have hbelow (c) (hm : c ∈ t.children) := (h c hm).mp ⟨hn c hm, hc c hm⟩
    exact ⟨⟨fun l r h => absurd h (hr l r), fun c hm => (hbelow c hm).1⟩, fun c hm => (hbelow c hm).2⟩
  · rintro ⟨⟨-, hflat⟩, hplain⟩
    have hbelow (c) (hm : c ∈ t.children) := (h c hm).mpr ⟨hflat c hm, hplain c hm⟩
    exact ⟨fun c hm => (hbelow c hm).1, fun c hm => (hbelow c hm).2⟩

/-- One walk finds nested rewrites outside of calls, the other one rewrites in calls: together they find
whatever is wrong. -/
theorem nested_or_call_iff : nestedWithin functions t = false ∧ callWithin functions t = false ↔
    t.HasFlatRewrites ∧ t.HasPlainCalls functions := by
  induction t using Term.induction with
  | h t ih =>
    rw [Term.hasPlainCalls_iff, nestedWithin_eq, callWithin_eq]
    split
    · rename_i l r hn
      have hcall : t.constLabel? = none := by rw [Term.constLabel?, hn]; rfl
      simp only [hcall, Option.any_none, Bool.false_eq_true, false_implies, true_and]
      rw [← flat_rewrite_iff hn, Bool.or_eq_false_iff, and_true]
    · rename_i hr
      cases hc : t.constLabel?.any functions.contains with
      | false =>
        simp only [Bool.not_false, Bool.true_and, Bool.false_eq_true, if_false, false_implies, true_and]
        exact flat_children_iff (fun l r h => hr l r h) ih
      | true =>
        simp only [Bool.not_true, Bool.false_and, true_and, if_true, forall_const]
        refine ⟨fun h => ⟨Term.hasFlatRewrites_of_hasRewrite h, h, fun c hm u hu _ => ?_⟩, fun h => h.2.1⟩
        exact Term.not_hasRewrite_subterm (Term.hasRewrite_child h hm) hu

/-- The body itself may be a call with rewrites in it. -/
theorem hasNested_or_hasUnderFunction_iff :
    hasNested functions t = false ∧ hasUnderFunction functions t = false ↔
      t.HasFlatRewrites ∧ ∀ c ∈ t.children, c.HasPlainCalls functions := by
  unfold hasNested hasUnderFunction
  split
  · rename_i l r hn
    rw [← flat_rewrite_iff hn, Bool.or_eq_false_iff, and_iff_left rfl]
  · rename_i hr
    exact flat_children_iff (fun l r h => hr l r h) fun c _ => nested_or_call_iff

end Misplacement

/-! ### Rules -/

namespace Rule
variable {functions : List String} {multiplicity : String → Multiplicity} {n : Nat} {r r' : Rule}

/-- The rewrites of the rule are where they may be. -/
structure HasPlacedRewrites (functions : List String) (r : Rule) : Prop where
  conditions : ∀ c ∈ r.requires ++ r.ensures, c.hasRewrite = false
  body : r.body.hasRewrite
  notNested : r.body.HasFlatRewrites
  notUnderCall : ∀ c ∈ r.body.children, c.HasPlainCalls functions

/-- The rule has the sides and conditions of the other, and its rewrites are lifted. -/
structure IsLiftOf (r' r : Rule) : Prop where
  kind : r'.kind = r.kind
  attributes : r'.attributes = r.attributes
  requires : r'.requires = r.requires
  ensures : r'.ensures = r.ensures
  equations : r'.equations = r.equations
  left : r'.left == r.left
  right : r'.right == r.right
  lifted : r'.body.HasLiftedRewrites

/-- The rule was put together before the node with the number `n`, and it could be put together again. -/
structure IsMade (multiplicity : String → Multiplicity) (n : Nat) (r : Rule) : Prop where
  body : r.body.MadeBefore n
  multiplicities : r.body.HasMultiplicities multiplicity
  conditions : ∀ c ∈ r.requires ++ r.ensures, c.touchesEditable = false
  left : ∃ m k, r.body.MadeBefore m ∧ r.body.leftSide m = (.ok r.left, k)
  right : ∃ m k, r.body.MadeBefore m ∧ r.body.rightSide m = (.ok r.right, k)
  lookups : ∀ m, n ≤ m → Gives m (fun _ _ => True) do (← Formula.truth.addEquations r.equations).simplify

theorem misplacement_eq_none_iff : Misplacement.of? functions r = none ↔ r.HasPlacedRewrites functions := by
  have hconditions : (r.requires ++ r.ensures).any (·.hasRewrite) = false ↔
      ∀ c ∈ r.requires ++ r.ensures, c.hasRewrite = false := by
    simp only [List.any_eq_false, Bool.not_eq_true]
  have hrewrites : Misplacement.hasNested functions r.body = false ∧
      Misplacement.hasUnderFunction functions r.body = false ↔ _ :=
    Misplacement.hasNested_or_hasUnderFunction_iff
  constructor
  · intro h
    unfold Misplacement.of? at h
    split at h <;> try cases h
    split at h <;> try cases h
    split at h <;> try cases h
    split at h <;> try cases h
    rename_i hc hb hn hu
    obtain ⟨hflat, hplain⟩ := hrewrites.mp ⟨by simpa using hn, by simpa using hu⟩
    exact ⟨hconditions.mp (by simpa using hc), by simpa using hb, hflat, hplain⟩
  · rintro ⟨hc, hb, hflat, hplain⟩
    obtain ⟨hn, hu⟩ := hrewrites.mpr ⟨hflat, hplain⟩
    rw [Misplacement.of?, hconditions.mpr hc, hb, hn, hu]
    rfl

theorem freeze_of_not_touchesEditable {t : Term} (h : t.touchesEditable = false) : t.freeze = pure t := by
  rw [Term.freeze, Term.fold_eq, h]
  rfl

theorem mapM_freeze {ts : List Term} (h : ∀ t ∈ ts, t.touchesEditable = false) :
    ts.mapM Term.freeze = pure ts := by
  induction ts with
  | nil => rfl
  | cons t ts ih =>
    rw [List.mapM_cons, freeze_of_not_touchesEditable (h t List.mem_cons_self), pure_bind,
      ih fun u hu => h u (List.mem_cons_of_mem t hu), pure_bind]

/-- Rules that are put together from what has been made can be put together again. -/
theorem gives_isMade {kind : RuleKind} {attributes : Attributes} {body : Term} {requires ensures : List Term}
    {equations : List (Term × Term)} (hbody : body.MadeBefore n) (hmult : body.HasMultiplicities multiplicity)
    (hconditions : ∀ c ∈ requires ++ ensures, c.touchesEditable = false)
    (hlookups : ∀ m, n ≤ m → Gives m (fun _ _ => True) do (← Formula.truth.addEquations equations).simplify) :
    Gives n (fun k r => r.body = body ∧ r.IsMade multiplicity k)
      (assemble kind attributes body requires ensures equations) := by
  have hbefore {k : Nat} (hk : n ≤ k) : body.MadeBefore k := Term.kept_madeBefore.mono hk hbody
  have hside (s : Side) {k : Nat} (hk : n ≤ k) :
      Gives k (fun _ u => ∃ m m', body.MadeBefore m ∧ s.walk body m = (.ok u, m')) (s.walk body) := by
    obtain ⟨u, k', hrun, hk', -⟩ := s.gives_walk body hbody hk
    exact ⟨u, k', hrun, hk', k, k', hbefore hk, hrun⟩
  unfold assemble
  rw [freeze_of_not_touchesEditable hbody.not_touchesEditable, pure_bind,
    mapM_freeze fun c hc => hconditions c (List.mem_append_left _ hc), pure_bind,
    mapM_freeze fun c hc => hconditions c (List.mem_append_right _ hc), pure_bind]
  refine (hside .left (Nat.le_refl n)).bind fun k left hk hleft => ?_
  refine (hside .right hk).bind fun k' right hk' hright => ?_
  have hn := Nat.le_trans hk hk'
  rw [← bind_assoc]
  refine (hlookups k' hn).bind fun k'' _ hk'' _ => .pure ⟨rfl, ?_⟩
  have hn' := Nat.le_trans hn hk''
  exact ⟨hbefore hn', hmult, hconditions, hleft, hright, fun m hm => hlookups m (Nat.le_trans hn' hm)⟩

theorem IsMade.mono {m : Nat} (h : r.IsMade multiplicity n) (hnm : n ≤ m) : r.IsMade multiplicity m :=
  { h with
    body := Term.kept_madeBefore.mono hnm h.body
    lookups := fun k hk => h.lookups k (Nat.le_trans hnm hk) }

/-- The sides of the rule are what the sides of its body are. -/
theorem IsMade.isSide (h : r.IsMade multiplicity n) (s : Side) : Side.IsSide s r.body (s.select r.left r.right) := by
  have hside {t : Term} (ht : ∃ m k, r.body.MadeBefore m ∧ s.walk r.body m = (.ok t, k)) :
      Side.IsSide s r.body t := by
    obtain ⟨m, k, hbody, hrun⟩ := ht
    obtain ⟨u, k', hrun', -, hu⟩ := s.gives_walk r.body hbody (Nat.le_refl m)
    cases hrun.symm.trans hrun'
    exact hu.isSide
  cases s with
  | left => exact hside h.left
  | right => exact hside h.right

/-- A rule with a lifted body has the sides that it had. -/
theorem gives_assemble {body : Term} {b m : Nat} (h : r.IsMade multiplicity n) (hnm : n ≤ m)
    (hplaced : r.HasPlacedRewrites functions) (hlift : Term.Lifts r.body body) (hbody : body.MadeBefore b)
    (hbm : b ≤ m) : Gives m (fun _ r' => r'.IsLiftOf r)
      (assemble r.kind r.attributes body r.requires r.ensures r.equations) := by
  unfold assemble
  rw [freeze_of_not_touchesEditable hbody.not_touchesEditable, pure_bind,
    mapM_freeze fun c hc => h.conditions c (List.mem_append_left _ hc), pure_bind,
    mapM_freeze fun c hc => h.conditions c (List.mem_append_right _ hc), pure_bind]
  have hside (s : Side) {k : Nat} (hk : m ≤ k) : Gives k (fun _ u => u == s.select r.left r.right)
      (s.walk body) :=
    (s.gives_walk body hbody (Nat.le_trans hbm hk)).mono fun _ u _ hu => BEq.symm <|
      hlift.side_beq h.multiplicities hplaced.body (h.isSide s) hu.isSide
  refine (hside .left (Nat.le_refl m)).bind fun k left hk hleft => ?_
  refine (hside .right hk).bind fun k' right hk' hright => ?_
  rw [← bind_assoc]
  refine (h.lookups k' (Nat.le_trans hnm (Nat.le_trans hk hk'))).bind fun _ _ _ _ => .pure ?_
  exact ⟨rfl, rfl, rfl, rfl, rfl, hleft, hright, hlift.hasLiftedRewrites hplaced.notNested hplaced.body⟩

/-- A rule whose lifted body is the body that it has is left as it is. -/
theorem isLiftOf_self (hplaced : r.HasPlacedRewrites functions) {body : Term} (hlift : Term.Lifts r.body body)
    (hbody : body == r.body) : r.IsLiftOf r where
  kind := rfl
  attributes := rfl
  requires := rfl
  ensures := rfl
  equations := rfl
  left := BEq.refl _
  right := BEq.refl _
  lifted := (hlift.hasLiftedRewrites hplaced.notNested hplaced.body).congr hbody

/-- What lifting may make of a rule. -/
inductive LiftsTo (functions : List String) (r : Rule) : RuleOutcome → Prop where
  | kept (h : r.HasPlacedRewrites functions) (hr : r.IsLiftOf r) : LiftsTo functions r .kept
  | changed {r' : Rule} (h : r.HasPlacedRewrites functions) (hr : r'.IsLiftOf r) :
      LiftsTo functions r (.changed r')
  | dropped {d : Diagnostic} (h : ¬r.HasPlacedRewrites functions) (hd : d.isError) :
      LiftsTo functions r (.dropped d)

theorem isError_diagnostic (m : Misplacement) (location : Option Location) : (m.diagnostic location).isError := by
  cases m <;> cases location <;> rfl

theorem gives_liftRule {m : Nat} (h : r.IsMade multiplicity n) (hnm : n ≤ m) :
    Gives m (fun _ => r.LiftsTo functions) (liftRule functions r) := by
  unfold liftRule
  split
  · rename_i misplacement hsome
    refine .pure (.dropped (fun hplaced => ?_) (isError_diagnostic _ _))
    rw [misplacement_eq_none_iff.mpr hplaced] at hsome
    cases hsome
  · rename_i hnone
    have hplaced := misplacement_eq_none_iff.mp hnone
    refine (Term.gives_liftRewrites r.body h.body hnm hplaced.body).bind fun k body hk hlift => ?_
    split
    · rename_i hsame
      exact .pure (.kept hplaced (isLiftOf_self hplaced hlift.1 hsame))
    · refine (gives_assemble h (Nat.le_trans hnm hk) hplaced hlift.1 hlift.2 (Nat.le_refl k)).bind
        fun k' r' _ hr' => .pure (.changed hplaced hr')

end Rule

/-! ### The pass -/

/-- What lifting makes of a list of rules, with the diagnostics that it reports. -/
inductive LiftsRules (functions : List String) : List Rule → List Rule → List Diagnostic → Prop where
  | nil : LiftsRules functions [] [] []
  | kept {r r' : Rule} {rules rules' : List Rule} {diagnostics : List Diagnostic}
      (h : r.HasPlacedRewrites functions) (hr : r'.IsLiftOf r) (hrest : LiftsRules functions rules rules' diagnostics) :
      LiftsRules functions (r :: rules) (r' :: rules') diagnostics
  | dropped {r : Rule} {rules rules' : List Rule} {d : Diagnostic} {diagnostics : List Diagnostic}
      (h : ¬r.HasPlacedRewrites functions) (hd : d.isError) (hrest : LiftsRules functions rules rules' diagnostics) :
      LiftsRules functions (r :: rules) rules' (d :: diagnostics)

/-- The rules of the definition were put together before the node with the number `n`. -/
def Definition.IsMade (n : Nat) (d : Definition) : Prop :=
  ∀ r ∈ d.rules, r.IsMade d.signature.cells.multiplicity n

/-- The outcomes for rules that are dealt with one after the other. -/
theorem liftsRules_outcomes (functions : List String) {multiplicity : String → Multiplicity} {n : Nat}
    (rules : List Rule) (h : ∀ r ∈ rules, r.IsMade multiplicity n) (s : Session) (hn : n ≤ s.nodes) :
    ∃ (outcomes : List (Rule × RuleOutcome)) (diagnostics : List Diagnostic) (nodes : Nat),
      (rules.mapM fun r => do
        let outcome ← (liftRule functions r : SessionM RuleOutcome)
        outcome.report
        return (r, outcome)) s =
          (.ok outcomes, { s with queue := diagnostics.foldl DiagnosticQueue.add s.queue, nodes }) ∧
        LiftsRules functions rules (outcomes.filterMap fun (r, outcome) => outcome.rule? r) diagnostics := by
  induction rules generalizing s with
  | nil => exact ⟨[], [], s.nodes, rfl, .nil⟩
  | cons r rules ih =>
    have hr : Gives s.nodes (fun _ => r.LiftsTo functions) (liftRule functions r) :=
      Rule.gives_liftRule (h r List.mem_cons_self) hn
    obtain ⟨o, k, hrun, hk, ho⟩ := hr
    have hrest (s' : Session) (hs' : s'.nodes = k) :=
      ih (fun r hr => h r (List.mem_cons_of_mem _ hr)) s' (hs' ▸ Nat.le_trans hn hk)
    cases ho with
    | kept hplaced hr =>
      obtain ⟨outcomes, diagnostics, nodes, hrules, hlifts⟩ := hrest { s with nodes := k } rfl
      refine ⟨(r, .kept) :: outcomes, diagnostics, nodes, ?_, .kept hplaced hr hlifts⟩
      rw [List.mapM_cons, SessionM.bind_eq (a := (r, .kept)) (SessionM.bind_eq (SessionM.lift_eq hrun) _),
        SessionM.bind_eq hrules]
      rfl
    | changed hplaced hr =>
      obtain ⟨outcomes, diagnostics, nodes, hrules, hlifts⟩ := hrest { s with nodes := k } rfl
      refine ⟨(r, .changed _) :: outcomes, diagnostics, nodes, ?_, .kept hplaced hr hlifts⟩
      rw [List.mapM_cons, SessionM.bind_eq (a := (r, .changed _)) (SessionM.bind_eq (SessionM.lift_eq hrun) _),
        SessionM.bind_eq hrules]
      rfl
    | @dropped d hplaced hd =>
      obtain ⟨outcomes, diagnostics, nodes, hrules, hlifts⟩ := hrest { s with nodes := k, queue := s.queue.add d } rfl
      refine ⟨(r, .dropped d) :: outcomes, d :: diagnostics, nodes, ?_, .dropped hplaced hd hlifts⟩
      rw [List.mapM_cons, SessionM.bind_eq (a := (r, .dropped d)) (SessionM.bind_eq (SessionM.lift_eq hrun) _),
        SessionM.bind_eq hrules]
      rfl

/-- A rewrite of an argument in a cell, next to another cell that is read. -/
def stepInCell : Term :=
  let step : Term := ⟨⟨1, false⟩, .rewrite (.constant "a") (.constant "b")⟩
  let call : Term := ⟨⟨2, false⟩, .app (.const "s") [step] .kItem⟩
  let rest : Term := ⟨⟨3, false⟩, .var ⟨"Rest", .map, 0⟩⟩
  ⟨⟨4, false⟩, .cells [⟨"k", .one, call⟩, ⟨"state", .one, rest⟩] []⟩

/-- A rewrite in a rewrite. -/
def stepInStep : Term :=
  let step : Term := ⟨⟨5, false⟩, .rewrite (.constant "a") (.constant "b")⟩
  ⟨⟨6, false⟩, .rewrite step (.constant "c")⟩

end RuleCompiler
