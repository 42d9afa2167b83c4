import RuleCompiler.Compilation
import RuleCompiler.Proofs.Lowering
import RuleCompiler.Proofs.Passes

/-! # Compiled definitions

The rules of a compiled definition are well formed, and its regular rules are filed by the pairs
that they have in the end. -/

namespace RuleCompiler

open Term (Tidy)

/-! ### Lowered definitions -/

theorem Signature.wellFormed_lowerRule (sig : Signature) (r : SourceRule) :
    Returns (Rule.WellFormed true) (sig.lowerRule r) := by
  refine (sig.tidy_lower r.body).bind fun body hbody => ?_
  refine .bind' fun requires => .bind' fun ensures => .bind' fun left => ?_
  exact .lift (Rule.wellFormed_assemble hbody)

theorem Signature.wellFormed_lowerRule? (sig : Signature) (r : SourceRule) :
    Returns (fun o => ∀ r', o = some r' → r'.WellFormed true) (sig.lowerRule? r) := by
  refine (sig.wellFormed_lowerRule r).run_ok.bind fun e he => ?_
  cases e with
  | ok r' =>
    refine .pure ?_
    rintro _ ⟨⟩
    exact he r' rfl
  | error e => exact .bind' fun _ => .pure fun _ h => by cases h

theorem FlatModule.wellFormed_lower (m : FlatModule) :
    Returns (Definition.HasWellFormed true) m.lower := by
  refine .bind' fun _ => .bind' fun s => ?_
  exact (Returns.filterMapM fun r _ => Signature.wellFormed_lowerRule? _ r).bind
    fun rules hrules => .pure hrules

theorem SourceDefinition.wellFormed_lower (src : SourceDefinition) :
    Returns (fun o => ∀ d, o = some d → d.HasWellFormed true) src.lower := by
  unfold SourceDefinition.lower
  split
  · refine (FlatModule.wellFormed_lower _).bind fun d hd => .pure ?_
    rintro _ ⟨⟩
    exact hd
  · exact .bind' fun _ => .pure fun _ h => by cases h

/-! ### Pipelines -/

namespace Pipeline

theorem sublist_planFrom (disabled : List String) :
    ∀ ps : List Pass, (planFrom disabled ps).passes.Sublist ps
  | [] => List.nil_sublist _
  | p :: ps => by
    have ih := sublist_planFrom disabled ps
    unfold planFrom
    split
    · exact ih.cons_cons p
    · split
      · exact List.nil_sublist _
      · exact ih.cons p

theorem sublist_plan (p : Pipeline) : p.plan.passes.Sublist p.passes := by
  unfold plan
  split
  · exact sublist_planFrom _ _
  · exact List.nil_sublist _

theorem wellFormed_runAll {b : Bool} {ps : List Pass} (hps : ∀ p ∈ ps, p.KeepsWellFormed b)
    {d : Definition} (h : d.HasWellFormed b) :
    Returns (Definition.HasWellFormed b) (ps.foldlM (fun d p => return (← p.run d).1) d) :=
  .foldlM h fun d hd p hp => (hps p hp d hd).bind fun _ he => .pure he

end Pipeline

/-- The passes before partial evaluation. -/
def Pass.early : List Pass :=
  [rewriteLifting, operatorFlattening, expansion, operatorFlattening, lookups, freshNaming,
    singleVariables]

theorem Pass.early_keep : ∀ p ∈ early, p.KeepsWellFormed true := by
  simp only [early, List.forall_mem_cons]
  exact ⟨rewriteLifting_keeps, operatorFlattening_keeps, expansion_keeps, operatorFlattening_keeps,
    lookups_keeps, freshNaming_keeps, singleVariables_keeps, List.forall_mem_nil _⟩

theorem Pass.late_keep : ∀ p ∈ [partialEvaluation, merging], p.KeepsWellFormed false := by
  simp only [List.forall_mem_cons]
  exact ⟨partialEvaluation_keeps, merging_keeps, List.forall_mem_nil _⟩

theorem Definition.HasWellFormed.left {d : Definition} (h : d.HasWellFormed true) :
    d.HasWellFormed false :=
  fun r hr => ⟨(h r hr).body.left, (h r hr).left, (h r hr).right⟩

/-- Whichever passes are disabled, the default pipeline gives well-formed rules. -/
theorem Pipeline.wellFormed_run {p : Pipeline} (hp : p.passes = Pass.all) {d : Definition}
    (h : d.HasWellFormed true) :
    Returns (fun r => ∀ d', r = .ok d' → d'.HasWellFormed false) (p.run d) := by
  have hsub : p.plan.passes.Sublist (Pass.early ++ [.partialEvaluation, .merging]) := by
    have hplan := p.sublist_plan
    rw [hp] at hplan
    exact hplan
  obtain ⟨early, late, hplan, hearly, hlate⟩ := List.sublist_append_iff.mp hsub
  have hrun : Returns (Definition.HasWellFormed false)
      (p.plan.passes.foldlM (fun d p => return (← p.run d).1) d) := by
    rw [hplan, List.foldlM_append]
    refine (wellFormed_runAll (fun q hq => Pass.early_keep q (hearly.subset hq)) h).bind fun d hd => ?_
    exact wellFormed_runAll (fun q hq => Pass.late_keep q (hlate.subset hq)) hd.left
  refine hrun.bind fun d hd => ?_
  split
  · exact .pure fun _ h => by cases h
  · refine .pure ?_
    rintro _ ⟨⟩
    exact hd

/-! ### Compilation -/

/-- A definition that compilation gives, from some source and whatever node numbers come next. -/
def Definition.IsCompiled (d : Definition) : Prop :=
  ∃ (o : Options) (src : SourceDefinition) (n : Nat) (c : Compiled),
    (compile o src).result? n = some (.ok c) ∧ c.definition = d

theorem returns_compile (o : Options) (src : SourceDefinition) :
    Returns (fun r => ∀ c, r = .ok c →
      ∃ d : Definition, c.definition = d.withTable ∧ d.HasWellFormed false) (compile o src) := by
  let p (r : Except PipelineError (Option Definition)) := ∀ d, r = .ok (some d) → d.HasWellFormed false
  refine Returns.bind (.sessionRun (p := p) ?_ o) fun e h => ?_
  · refine src.wellFormed_lower.bind fun l hl => ?_
    cases l with
    | none => exact .pure fun _ h => by cases h
    | some lowered =>
      refine (Pipeline.wellFormed_run rfl (hl lowered rfl)).bind fun r hr => .pure fun d hd => ?_
      cases r with
      | error => cases hd
      | ok d' =>
        cases hd
        exact hr d rfl
  · obtain ⟨outcome, s⟩ := e
    cases outcome with
    | error e => exact .pure fun _ h => by cases h
    | ok d =>
      refine .pure fun c hc => ?_
      cases d with
      | none => cases hc
      | some d =>
        unfold Session.conclude at hc
        dsimp only at hc
        split at hc <;> cases hc
        exact ⟨d, rfl, h d rfl⟩

namespace Definition.IsCompiled
variable {d : Definition}

theorem exists_withTable (h : d.IsCompiled) :
    ∃ d' : Definition, d = d'.withTable ∧ d'.HasWellFormed false := by
  obtain ⟨o, src, n, c, hc, rfl⟩ := h
  exact (returns_compile o src).of_result? hc c rfl

theorem hasWellFormed (h : d.IsCompiled) : d.HasWellFormed false := by
  obtain ⟨d', rfl, h'⟩ := h.exists_withTable
  exact h'

/-- The table is that of the rules as they are. -/
theorem withTable_eq (h : d.IsCompiled) : d.withTable = d := by
  obtain ⟨d', rfl, -⟩ := h.exists_withTable
  rfl

end Definition.IsCompiled

/-! ### Running the compiler -/

/-- The definition that a source compiles to, if it does, with its nodes numbered from 1. -/
def compiled? (o : Options) (src : SourceDefinition) : Option Definition :=
  ((compile o src).result? 1).bind fun
    | .ok c => some c.definition
    | .error _ => none

theorem isCompiled_of_compiled? {o : Options} {src : SourceDefinition} {d : Definition}
    (h : compiled? o src = some d) : d.IsCompiled := by
  obtain ⟨r, hr, hd⟩ := Option.bind_eq_some_iff.mp h
  cases r with
  | error => cases hd
  | ok c =>
    cases hd
    exact ⟨o, src, 1, c, hr, rfl⟩

namespace Definition

/-- The subject that a source term stands for, if it stands for one, with its nodes numbered
from 1. -/
def lowered? (d : Definition) (t : SourceTerm) : Option Term :=
  ((Session.run {} (d.lower t).run).result? 1).bind fun r => r.1.toOption

/-- Subjects in lowered form are tidy. -/
theorem tidy_lowered? {d : Definition} {t : SourceTerm} {s : Term} (h : d.lowered? t = some s) :
    Tidy true s := by
  have hlower : Returns (Tidy true) (d.lower t) :=
    (d.signature.tidy_lower t).bind fun u hu => .lift (Term.tidy_flatten d.signature.labels hu)
  obtain ⟨⟨r, session⟩, hr, hs⟩ := Option.bind_eq_some_iff.mp h
  cases r with
  | error => cases hs
  | ok u =>
    cases hs
    exact (hlower.run_ok.sessionRun {}).of_result? hr _ rfl

end Definition

end RuleCompiler
