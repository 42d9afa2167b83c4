import RuleCompiler.Pass.PartialEvaluation
import RuleCompiler.Proofs.Coupling.Renumbered
import RuleCompiler.Proofs.Fuel
import RuleCompiler.Proofs.RewriteLifting.Sides

/-! # The numbers of rules

The nodes of a rule have numbers that were given out already, and so have those of the rules that evaluation and
renaming make of it. -/

namespace RuleCompiler

open Build (From)
open Coupled (Runs)
open Matching (Pairs RelPair)
open Term (forall_mem_nodes)

/-- Evaluations that begin with the same budget. -/
def Allowance.equal : Allowance where
  Rel := Eq
  Followed _ := True
  spend_zero hb _ := ⟨trivial, fun _ h => ⟨h ▸ hb, h ▸ rfl⟩⟩
  spend_succ hb _ := ⟨trivial, fun _ h => ⟨_, h ▸ hb, h ▸ rfl⟩⟩
  refuse _ := ⟨trivial, fun _ h => h ▸ rfl⟩

namespace Term

/-- If the node has a number of its own, it is one given out before `n`. -/
def HasNumber (n : Nat) (t : Term) : Prop := t.isCanonical = false → t.mark.id < n

/-- The number of each node was given out before `n`. -/
def IsNumbered (n : Nat) (t : Term) : Prop := ∀ d ∈ t.nodes, HasNumber n d

theorem hasNumber_invariant (base : Nat) : NodeInvariant base HasNumber where
  mono hm h hc := Nat.lt_of_lt_of_le (h hc) hm
  canonical hm hc := (Bool.false_ne_true (hc.symm.trans hm)).elim
  made _ _ _ _ := Nat.lt_succ_self _
  editable _ _ h := h

variable {n m : Nat} {t : Term}

theorem IsNumbered.mono (hm : n ≤ m) (h : t.IsNumbered n) : t.IsNumbered m :=
  fun d hd => (hasNumber_invariant 0).mono hm (h d hd)

end Term

/-- A run beside itself, which numbers its nodes from `base` on. -/
def Coupling.numbered (base : Nat) : Coupling := (Term.hasNumber_invariant base).coupling .equal

variable {base n m k : Nat} {t u : Term}

theorem Build.from_of_runs {α β : Type} {C : Coupling} {R : Nat → α → β → Prop} {x : Build α} {y : Build β}
    (hn : C.base ≤ n) (h : C.Runs n R x y) : From n (fun k a => ∃ b, R k a b) x := by
  intro a k hrun
  obtain ⟨hk, -, hout⟩ := C.runs_iff.mp h hn
  rw [hrun] at hk hout
  obtain ⟨b, -, hR⟩ := hout.exists_right
  exact ⟨hk, b, hR⟩

/-! ### Terms -/

namespace Term

theorem numbered_rel : (Coupling.numbered base).Rel n t u ↔ t = u ∧ t.IsNumbered n := Iff.rfl

theorem isNumbered_of_relAll {ts us : List Term} (h : (Coupling.numbered base).RelAll n ts us) :
    ∀ t ∈ ts, t.IsNumbered n := by
  intro t ht
  obtain ⟨_, -, -, hnumbered⟩ := PairedLists.exists_mem h ht
  exact hnumbered

/-- Two runs take a side of a term. -/
theorem coupled_walk {C : Coupling} (s : Side) (t : Term) : ∀ {u : Term} {k : Nat}, C.Rel k t u →
    C.Runs k C.Rel (s.walk t) (s.walk u) := by
  induction t using Term.induction with
  | h t ih =>
    intro u k ht
    have halike := C.alike ht
    by_cases hrewrite : ∃ l r, t.node = .rewrite l r
    · obtain ⟨l, r, hnode⟩ := hrewrite
      have hunode : ∃ l' r', u.node = .rewrite l' r' ∧ C.Rel k l l' ∧ C.Rel k r r' := by
        rw [hnode] at halike
        generalize u.node = b at halike
        cases halike with
        | rewrite hl hr => exact ⟨_, _, rfl, hl, hr⟩
      obtain ⟨l', r', hunode, hl, hr⟩ := hunode
      rw [Side.walk_of_rewrite hnode, Side.walk_of_rewrite hunode]
      refine ih _ (s.select_mem hnode) ?_
      cases s with
      | left => exact hl
      | right => exact hr
    · have hr : t.isRewrite = false := by
        unfold isRewrite
        split
        · rename_i l r hnode
          exact absurd ⟨l, r, hnode⟩ hrewrite
        · rfl
      rw [Side.walk_of_not_rewrite hr, Side.walk_of_not_rewrite (by rw [← hr, isRewrite_congr (C.beq ht)])]
      refine coupled_update (m := Build) ht ?_ fun _ _ _ _ h => C.pure h
      refine List.forall₂_map_left_iff.mpr (List.forall₂_map_right_iff.mpr ?_)
      exact PairedLists.imp_mem (children_coupled ht) fun c hc d _ hcd i hi => ih c hc (C.rel_mono hi hcd)

theorem freeze_step (t : Term) : t.freeze = (do
    if !t.touchesEditable then return t
    let t' ← t.update (t.children.map freeze) pure
    if !t'.isEditable then return t'
    let t' ← if t'.same t then t'.copy else pure t'
    return t'.withEditable false) :=
  fold_eq _ t

theorem isNumbered_withMark {mark : Mark} (h : t.IsNumbered n) (hid : mark.id < n) :
    IsNumbered n { t with mark } := by
  obtain ⟨-, hbelow⟩ := forall_mem_nodes.mp h
  exact forall_mem_nodes.mpr ⟨fun _ => hid, hbelow⟩

theorem isNumbered_withEditable (h : t.IsNumbered n) (b : Bool) : (t.withEditable b).IsNumbered n := by
  obtain ⟨hself, hbelow⟩ := forall_mem_nodes.mp h
  exact forall_mem_nodes.mpr ⟨hself, hbelow⟩

theorem runs_copy (h : t.IsNumbered n) :
    (Coupling.numbered base).Runs n (Coupling.numbered base).Rel t.copy t.copy := by
  let C := Coupling.numbered base
  unfold copy
  refine Pairing.ite (fun _ => C.pure ⟨rfl, h⟩) fun _ => C.runs_iff.mpr fun _ => ?_
  exact ⟨Nat.le_succ n, rfl, .ok ⟨rfl, isNumbered_withMark (h.mono (Nat.le_succ n)) (Nat.lt_succ_self n)⟩⟩

theorem runs_freeze (t : Term) : ∀ {k : Nat}, t.IsNumbered k →
    (Coupling.numbered base).Runs k (Coupling.numbered base).Rel t.freeze t.freeze := by
  let C := Coupling.numbered base
  induction t using Term.induction with
  | h t ih =>
    intro k ht
    obtain ⟨-, hbelow⟩ := forall_mem_nodes.mp ht
    have hupdate : C.Runs k C.Rel (t.update (t.children.map freeze) pure) (t.update (t.children.map freeze) pure) := by
      refine coupled_update (m := Build) (C := C) ⟨rfl, ht⟩ ?_ fun _ _ _ _ h => C.pure h
      refine List.forall₂_map_left_iff.mpr (List.forall₂_map_right_iff.mpr (List.forall₂_same.mpr fun c hc i hi => ?_))
      exact ih c hc (IsNumbered.mono hi (hbelow c hc))
    rw [freeze_step]
    refine Pairing.ite (fun _ => C.pure ⟨rfl, ht⟩) fun _ => C.bind hupdate fun i v w hi h => ?_
    obtain ⟨rfl, hv⟩ := h
    refine Pairing.ite (fun _ => C.pure ⟨rfl, hv⟩) fun _ => ?_
    have hclose (j : Nat) (v w : Term) (_ : i ≤ j) (h : C.Rel j v w) :
        C.Runs j C.Rel (pure (v.withEditable false)) (pure (w.withEditable false)) :=
      C.pure ⟨congrArg (·.withEditable false) h.1, isNumbered_withEditable h.2 false⟩
    exact Pairing.ite (fun _ => C.bind (runs_copy hv) hclose) fun _ => C.bind (C.pure ⟨rfl, hv⟩) hclose

end Term

theorem Formula.Coupled.terms {C : Coupling} {f g : Formula} (h : f.Coupled C n g) : C.RelAll n f.terms g.terms := by
  refine List.rel_append (List.rel_append ?_ ?_) ?_
  · exact List.forall₂_map_left_iff.mpr (List.forall₂_map_right_iff.mpr (h.substitution.imp fun _ _ h => h.2))
  · exact List.rel_flatMap h.equations fun _ _ h => .cons h.1 (.cons h.2 .nil)
  · exact List.rel_flatMap h.lookups fun _ _ h => h.terms

/-! ### Rules -/

namespace Rule

/-- The terms of the rule and what was made of them. -/
def parts (r : Rule) : List Term := r.terms ++ r.left :: r.right :: r.lookups.terms

/-- The numbers of all nodes of the rule were given out before `n`. -/
def IsNumbered (n : Nat) (r : Rule) : Prop := ∀ t ∈ r.parts, t.IsNumbered n

variable {r : Rule}

theorem IsNumbered.mono (hm : n ≤ m) (h : r.IsNumbered n) : r.IsNumbered m := fun t ht => (h t ht).mono hm

theorem IsNumbered.terms (h : r.IsNumbered n) : ∀ t ∈ r.terms, t.IsNumbered n :=
  fun t ht => h t (List.mem_append_left _ ht)

theorem from_assemble_numbered {kind : RuleKind} {attributes : Attributes} {body : Term} {requires ensures : List Term}
    {equations : List (Term × Term)}
    (h : ∀ t ∈ body :: (requires ++ (ensures ++ equations.flatMap fun e => [e.1, e.2])), t.IsNumbered n) :
    From n (fun k r => r.IsNumbered k) (assemble kind attributes body requires ensures equations) := by
  simp only [List.forall_mem_cons, List.forall_mem_append] at h
  obtain ⟨hbody, hrequires, hensures, hequations⟩ := h
  let C := Coupling.numbered n
  have hterm {x : Build Term} {k : Nat} (hk : n ≤ k) (hx : C.Runs k C.Rel x x) :
      From k (fun k t => t.IsNumbered k) x := by
    intro t m hrun
    obtain ⟨hm, _, -, ht⟩ := Build.from_of_runs hk hx t m hrun
    exact ⟨hm, ht⟩
  have hall {ts : List Term} {k : Nat} (hk : n ≤ k) (hts : ∀ t ∈ ts, t.IsNumbered k) :
      From k (fun k us => ∀ u ∈ us, u.IsNumbered k) (ts.mapM Term.freeze) :=
    From.mapM_all (fun hm h => h.mono hm) fun t ht i hi =>
      hterm (Nat.le_trans hk hi) (Term.runs_freeze t ((hts t ht).mono hi))
  unfold assemble
  refine (hterm (Nat.le_refl n) (Term.runs_freeze body hbody)).bind fun k₁ body hk₁ hbody => ?_
  refine (hall hk₁ fun t ht => (hrequires t ht).mono hk₁).bind fun k₂ requires hk₂ hrequires => ?_
  have hk : n ≤ k₂ := Nat.le_trans hk₁ hk₂
  refine (hall hk fun t ht => (hensures t ht).mono hk).bind fun k₃ ensures hk₃ hensures => ?_
  have hk : n ≤ k₃ := Nat.le_trans hk hk₃
  have hbody : body.IsNumbered k₃ := hbody.mono (by omega)
  refine (hterm hk (Term.coupled_walk .left body ⟨rfl, hbody⟩)).bind fun k₄ left hk₄ hleft => ?_
  have hbody : body.IsNumbered k₄ := hbody.mono hk₄
  refine (hterm (Nat.le_trans hk hk₄) (Term.coupled_walk .right body ⟨rfl, hbody⟩)).bind fun k₅ right hk₅ hright => ?_
  have hk : n ≤ k₅ := by omega
  have hpairs : Pairs C k₅ equations equations :=
    List.forall₂_same.mpr fun p hp => ⟨⟨rfl, (hequations p.1 (List.mem_flatMap.mpr ⟨p, hp, by simp⟩)).mono hk⟩,
      rfl, (hequations p.2 (List.mem_flatMap.mpr ⟨p, hp, by simp⟩)).mono hk⟩
  have hadded := Formula.coupled_addEquations (.truth []) hpairs
  refine (Build.from_of_runs hk hadded).bind fun k₆ f hk₆ ⟨f', hf⟩ => ?_
  have hsimplified := Build.from_of_runs (Nat.le_trans hk hk₆) (Formula.coupled_simplify hf)
  refine hsimplified.bind fun k₇ lookups hk₇ ⟨_, hl⟩ => .pure ?_
  have hk : n ≤ k₇ := by omega
  intro t ht
  simp only [parts, Rule.terms, List.cons_append, List.mem_cons, List.append_assoc, List.mem_append] at ht
  rcases ht with rfl | ht | ht | ht | rfl | rfl | ht
  · exact hbody.mono (by omega)
  · exact (hrequires t ht).mono (by omega)
  · exact (hensures t ht).mono (by omega)
  · exact (hequations t ht).mono (by omega)
  · exact hleft.mono (by omega)
  · exact hright.mono (by omega)
  · exact Term.isNumbered_of_relAll hl.terms t ht

theorem from_rename_numbered (names : List (Var × Var)) (h : r.IsNumbered n) :
    From n (fun k r => r.IsNumbered k) (r.rename names) := by
  obtain ⟨hbody, hrest⟩ := List.forall_mem_cons.mp h.terms
  simp only [List.forall_mem_append] at hrest
  obtain ⟨hrequires, hensures, hequations⟩ := hrest
  have hterm (t : Term) (k : Nat) (hk : n ≤ k) (ht : t.IsNumbered n) : From k (fun k t => t.IsNumbered k)
      (t.rename fun v => SortedList.get? v names) := by
    have hrename := Term.coupled_rename (C := Coupling.numbered n) (fun v => SortedList.get? v names)
      (Term.numbered_rel.mpr ⟨rfl, ht.mono hk⟩)
    intro t m hrun
    obtain ⟨hm, _, -, ht⟩ := Build.from_of_runs hk hrename t m hrun
    exact ⟨hm, ht⟩
  have hall {ts : List Term} {k : Nat} (hk : n ≤ k) (hts : ∀ t ∈ ts, t.IsNumbered n) :
      From k (fun k us => ∀ u ∈ us, u.IsNumbered k) (ts.mapM (Term.rename fun v => SortedList.get? v names)) :=
    From.mapM_all (fun hm h => h.mono hm) fun t ht i hi => hterm t i (Nat.le_trans hk hi) (hts t ht)
  unfold rename map
  refine (hterm _ n (Nat.le_refl n) hbody).bind fun k₁ body hk₁ hbody => ?_
  refine (hall hk₁ hrequires).bind fun k₂ requires hk₂ hrequires => ?_
  have hk : n ≤ k₂ := Nat.le_trans hk₁ hk₂
  refine (hall hk hensures).bind fun k₃ ensures hk₃ hensures => ?_
  have hk : n ≤ k₃ := Nat.le_trans hk hk₃
  have hpairs : From k₃ (fun k es => ∀ p ∈ es, p.1.IsNumbered k ∧ p.2.IsNumbered k) (r.equations.mapM fun p =>
      return (← p.1.rename fun v => SortedList.get? v names, ← p.2.rename fun v => SortedList.get? v names)) := by
    refine From.mapM_all (fun hm h => ⟨h.1.mono hm, h.2.mono hm⟩) fun p hp i hi => ?_
    have hleft := hequations p.1 (List.mem_flatMap.mpr ⟨p, hp, by simp⟩)
    have hright := hequations p.2 (List.mem_flatMap.mpr ⟨p, hp, by simp⟩)
    refine (hterm p.1 i (Nat.le_trans hk hi) hleft).bind fun j u hj hu => ?_
    exact (hterm p.2 j (by omega) hright).bind fun l v hl hv => .pure ⟨hu.mono hl, hv⟩
  refine hpairs.bind fun k₄ equations hk₄ hequations => from_assemble_numbered ?_
  simp only [List.forall_mem_cons, List.forall_mem_append]
  refine ⟨hbody.mono (by omega), fun t ht => (hrequires t ht).mono (by omega),
    fun t ht => (hensures t ht).mono (by omega), fun t ht => ?_⟩
  obtain ⟨p, hp, ht⟩ := List.mem_flatMap.mp ht
  simp only [List.mem_cons, List.not_mem_nil, or_false] at ht
  rcases ht with rfl | rfl
  · exact (hequations p hp).1
  · exact (hequations p hp).2

end Rule

/-! ### Evaluation -/

namespace Evaluator
variable {e : Evaluator} {r : Rule} {C : Coupling}

/-- The body and the conditions of a rule, evaluated. -/
def evaluateParts (e : Evaluator) (r : Rule) : Evaluation (Term × List Term × List Term) := do
  return (← e.evaluateRights r.body, ← r.requires.mapM e.evaluate, ← r.ensures.mapM e.evaluate)

theorem evaluateRule?_eq (e : Evaluator) (r : Rule) : e.evaluateRule? r = (do
    let (body, requires, ensures) ← e.evaluateParts r
    if body == r.body && requires == r.requires && ensures == r.ensures then return none
    let kept (conditions : List Term) := conditions.filter (!·.isTrue)
    return some (← (Rule.assemble r.kind r.attributes body (kept requires) (kept ensures) r.equations : Build _))) := by
  unfold evaluateRule? evaluateParts
  simp only [bind_assoc, pure_bind]

/-- Two runs evaluate the body and the conditions of a rule. -/
theorem coupled_evaluateParts (he : e.Coupled C) (hn : C.base ≤ n) (h : ∀ t ∈ r.terms, C.Rel n t t) :
    Runs C n (fun k p q => C.Rel k p.1 q.1 ∧ C.RelAll k p.2.1 q.2.1 ∧ C.RelAll k p.2.2 q.2.2)
      (e.evaluateParts r) (e.evaluateParts r) := by
  obtain ⟨hbody, hrest⟩ := List.forall_mem_cons.mp h
  simp only [List.forall_mem_append] at hrest
  obtain ⟨hrequires, hensures, -⟩ := hrest
  have hevaluate (k : Nat) (t u : Term) (hk : C.base ≤ k) (h : C.Rel k t u) :
      Runs C k C.Rel (e.evaluate t) (e.evaluate u) := coupled_within he (Nat.le_refl _) (.inl rfl) hk h
  have hrights : Runs C n C.Rel (e.evaluateRights r.body) (e.evaluateRights r.body) := by
    refine Term.coupled_replaceDown (fun k t u hk ht => ?_) r.body (Nat.le_refl n) hbody
    have halike := C.alike ht
    generalize t.node = a, u.node = a' at halike
    cases halike with
    | rewrite hl hr =>
      refine Coupled.bind (hevaluate k _ _ (Nat.le_trans hn hk) hr) fun i r' s' hi hr' => ?_
      rw [Term.beq_congr (C.beq hr') (C.beq hr)]
      have hsome (j : Nat) (v w : Term) (_ : i ≤ j) (h : C.Rel j v w) :
          Runs (m := Evaluation) C j (fun k => Option.Rel (C.Rel k)) (pure (some v)) (pure (some w)) :=
        Coupled.pure (.some h)
      refine Coupled.ite (fun _ => Coupled.bind (Coupled.pure (C.rel_mono hi ht)) hsome) fun _ => ?_
      exact Coupled.bind (Coupled.lift (C.newAny (.rewrite (C.rel_mono hi hl) hr'))) hsome
    | _ => exact Coupled.pure .none
  have hall {k : Nat} {ts : List Term} (hk : n ≤ k) (hts : ∀ t ∈ ts, C.Rel n t t) :
      Runs C k C.RelAll (ts.mapM e.evaluate) (ts.mapM e.evaluate) :=
    Coupled.mapM (R := C.Rel) (T := C.Rel) C.rel_mono C.rel_mono
      (List.forall₂_same.mpr fun t ht => C.rel_mono hk (hts t ht)) fun i hi t _ u h => hevaluate i t u (by omega) h
  unfold evaluateParts
  refine Coupled.bind hrights fun k₁ body body' hk₁ hbody => ?_
  refine Coupled.bind (hall hk₁ hrequires) fun k₂ requires requires' hk₂ hrequires => ?_
  refine Coupled.bind (hall (Nat.le_trans hk₁ hk₂) hensures) fun k₃ ensures ensures' hk₃ hensures => Coupled.pure ?_
  exact ⟨C.rel_mono (by omega) hbody, Pairing.RelAll.mono hk₃ hrequires, hensures⟩

/-- What evaluation makes of a rule is numbered. -/
theorem numbered_evaluateRule? {b c : Budget} {o : Option Rule} (he : ∀ t ∈ e.terms, t.IsNumbered n) (hn : n ≤ k)
    (hr : r.IsNumbered n) (hrun : e.evaluateRule? r b k = (.ok (o, c), m)) :
    k ≤ m ∧ ∀ r' ∈ o, r'.IsNumbered m := by
  let C := Coupling.numbered n
  have hself : e.Coupled C := coupled_self fun t ht => ⟨rfl, he t ht⟩
  have hparts := coupled_evaluateParts hself hn fun t ht => ⟨rfl, (hr.terms t ht).mono hn⟩
  rw [evaluateRule?_eq] at hrun
  obtain ⟨⟨body, requires, ensures⟩, c₁, i, hevaluated, hrun⟩ := Evaluation.exists_of_bind hrun
  obtain ⟨hi, -, _, ⟨⟨-, hbody⟩, hrequires, hensures⟩, -⟩ := hparts b _ c₁ i hn hevaluated
  dsimp only at hrun
  split at hrun
  · cases hrun
    exact ⟨hi, fun _ h => nomatch h⟩
  · obtain ⟨r', c₂, j, hlift, hrun⟩ := Evaluation.exists_of_bind hrun
    obtain ⟨hassemble, -⟩ := Evaluation.exists_of_lift hlift
    have hgiven : (Except.ok (some r', c₂), j) = (Except.ok (o, c), m) := hrun
    rw [Prod.mk.injEq, Except.ok.injEq, Prod.mk.injEq] at hgiven
    obtain ⟨⟨rfl, -⟩, rfl⟩ := hgiven
    have hparts : ∀ t ∈ body :: (requires.filter (!·.isTrue) ++ (ensures.filter (!·.isTrue) ++
        r.equations.flatMap fun e => [e.1, e.2])), t.IsNumbered i := by
      simp only [List.forall_mem_cons, List.forall_mem_append]
      refine ⟨hbody, fun t ht => ?_, fun t ht => ?_, fun t ht => (hr.terms t ?_).mono (Nat.le_trans hn hi)⟩
      · exact Term.isNumbered_of_relAll hrequires t (List.mem_of_mem_filter ht)
      · exact Term.isNumbered_of_relAll hensures t (List.mem_of_mem_filter ht)
      · simp [Rule.terms, ht]
    obtain ⟨hj, hr'⟩ := Rule.from_assemble_numbered hparts r' j hassemble
    refine ⟨Nat.le_trans hi hj, fun r'' h => ?_⟩
    cases h
    exact hr'

/-- A rule that evaluation does not change is not changed later either. -/
theorem evaluateRule?_again {b c : Budget} (he : ∀ t ∈ e.terms, t.IsNumbered n) (hn : n ≤ k)
    (hr : r.IsNumbered n) (hrun : e.evaluateRule? r b k = (.ok (none, c), m)) (lead : Nat) :
    e.evaluateRule? r b (k + lead) = (.ok (none, c), m + lead) := by
  let C := Coupling.renumbered n lead .equal
  have hself (t : Term) (ht : t.IsNumbered n) : C.Rel n t t := Term.Renumbered.refl ht
  have hparts := coupled_evaluateParts (coupled_self fun t ht => hself t (he t ht)) hn
    fun t ht => hself t (hr.terms t ht)
  rw [evaluateRule?_eq] at hrun ⊢
  obtain ⟨⟨body, requires, ensures⟩, c₁, i, hevaluated, hrun⟩ := Evaluation.exists_of_bind hrun
  obtain ⟨-, -, ⟨body', requires', ensures'⟩, ⟨hbody, hrequires, hensures⟩, hsecond⟩ := hparts b _ c₁ i hn hevaluated
  obtain ⟨_, hagain, rfl⟩ := hsecond b rfl trivial
  refine (Build.bind_eq hagain).trans ?_
  have hbeq {ts us vs : List Term} (h : C.RelAll i ts us) : (ts == vs) = (us == vs) :=
    PairedLists.beq_congr (fun _ _ _ _ => Term.beq_congr) (h.imp fun _ _ h => C.beq h)
      (List.forall₂_same.mpr fun _ _ => BEq.rfl)
  dsimp only at hrun hbody hrequires hensures ⊢
  rw [← Term.beq_congr (C.beq hbody) BEq.rfl, ← hbeq hrequires, ← hbeq hensures]
  split at hrun
  · rename_i hsame
    cases hrun
    rw [if_pos hsame]
    rfl
  · obtain ⟨r', c₂, j, hlift, hrun⟩ := Evaluation.exists_of_bind hrun
    cases hrun

end Evaluator

end RuleCompiler
