import RuleCompiler.Proofs.Builder.Worlds
import RuleCompiler.Proofs.Compilation
import RuleCompiler.Proofs.Formula.Completeness
import RuleCompiler.Proofs.Matching.Determinacy
import RuleCompiler.Proofs.Matching.Soundness
import RuleCompiler.Proofs.Rebuilding.LiftedPatterns

/-! # Rules that are skipped

A rule that matches no call is skipped where the pattern, its variables renamed apart, has no instance in
common with the call. An instance of the call that the rule matches would be one: the bindings of the match,
for the renamed variables, and those of the call solve all equations between arguments. -/

namespace RuleCompiler

open Build (Always Leads)
open Matching (Names Reads Refines Sound Settled)

/-! ### Readings under other bindings -/

namespace Matching
variable {σ τ : Substitution} {p s : Term}

/-- What a pattern reads as depends on the bindings of its variables alone. -/
theorem Reads.of_get? (h : Reads σ p s) (hget : ∀ v ∈ p.vars, τ.get? v = σ.get? v) : Reads τ p s := by
  have hnames {v : Var} {s : Term} (hv : τ.get? v = σ.get? v) (h : Names σ v s) : Names τ v s := by
    obtain ⟨t, ht, h⟩ := h
    exact ⟨t, hv.trans ht, h⟩
  induction p using Term.induction generalizing s with
  | h p ih =>
    cases h with
    | ground hp h => exact .ground hp h
    | @var _ _ v hp h =>
      refine .var hp (hnames (hget v ?_) h)
      rw [Term.vars_of_var hp]
      exact List.mem_singleton_self v
    | node hp hvar hchoice hc hf h =>
      rw [Term.vars_of_not_isVar hvar] at hget
      refine .node hp hvar hchoice (PairedLists.imp_mem hc fun c hm s _ h => ih c hm h fun v hv => hget v ?_)
        (PairedLists.imp_mem hf fun v hm _ _ h => hnames (hget v (List.mem_append_right _ hm)) h) h
      exact List.mem_append_left _ (List.mem_flatMap.mpr ⟨c, hm, hv⟩)

end Matching

namespace Evaluator
variable {θ σ : Substitution} {w : World} {t u : Term} {v : Var}

/-! ### Variables renamed apart -/

theorem isRigid_of_var (hn : t.node = .var v) (hv : v.isDontCare = false) : t.IsRigid := by
  refine Term.everyNode_iff.mpr ⟨?_, fun c hc => ?_, ?_⟩
  · have hlookup : t.isLookup = false := by simp [Term.isLookup, Lookup.ofCall?, hn]
    rw [Term.isRigidNode, hlookup, hn]
    simp [Node.isChoice, Node.isRigid, hv]
  · rw [Term.children, hn] at hc
    cases hc
  · rw [Term.frames, hn]
    exact List.forall_mem_nil _

/-- Where renamed variables are bound like the variables, the renamed term may stand for the term. -/
theorem always_apart (ht : t.IsRigid) (hget : ∀ v ∈ t.vars, θ.get? (v.withId apartId) = θ.get? v) :
    Always (apart t) (Refines θ t) := by
  let P (t u : Term) : Prop :=
    Term.Steady t u ∧ ((∀ v ∈ t.vars, θ.get? (v.withId apartId) = θ.get? v) → Refines θ t u)
  have hrename : Always (apart t) (P t) := by
    refine Matching.always_replaceDown_induction (P := P) (fun u hu => by rw [Term.asVar?_eq_none hu]; rfl)
      And.left (fun {t} ht => ⟨.refl t, fun _ => .refl ht⟩) (fun {t v} ht hn => ?_)
      (fun {t u} ht hground hvar hhead hc => ?_) ht
    · have hrigid := ht.node.2.2 (by
        rw [← Bool.not_eq_true]
        exact fun hg => Term.not_isVar_of_isGround hg hn)
      have hnamed : v.isDontCare = false := by
        rw [hn] at hrigid
        simpa [Node.isRigid] using hrigid
      rw [Term.asVar?_of_var hn, Option.bind_some, hnamed, if_neg Bool.false_ne_true]
      refine (Term.always_new (.var (v.withId apartId))).bind fun u hu => .pure ?_
      have hsort : u.sort.subsortOf v.sort := by
        rw [Term.sort_eq u, hu]
        exact SortName.subsortOf_refl v.sort
      refine ⟨Matching.steady_of_var hn hsort, fun hget => Sound.refines ⟨isRigid_of_var hu hnamed, hsort, ?_⟩ hn⟩
      · refine fun {s} h => .var hu ?_
        obtain ⟨a, ha, h⟩ := h
        have hv := hget v (by rw [Term.vars_of_var hn]; exact List.mem_singleton_self v)
        exact ⟨a, hv.trans ha, h⟩
    · refine ⟨Matching.steady_of_head hground hhead, fun hget => ?_⟩
      refine Matching.refines_of_head ht hground hvar hhead ?_
      refine PairedLists.imp_mem hc fun c hm _ _ h => h.2 fun v hv => hget v ?_
      rw [Term.vars_of_not_isVar hvar]
      exact List.mem_append_left _ (List.mem_flatMap.mpr ⟨c, hm, hv⟩)
  exact hrename.mono fun _ h => h.2 hget

/-- The renamed term has the renamed variables of the term, and no others. -/
theorem leads_apart (ht : w.Has t) (hnamed : ∀ v ∈ t.vars, v.isDontCare = false) :
    Leads w (fun w u => w.HasOver (fun x => ∃ v ∈ t.vars, x = v.withId apartId) u) (apart t) := by
  refine World.leads_replaceDown (P := (· ∈ t.vars)) (fun w' u hw hu => ?_) ⟨ht, fun _ hv => hv⟩
  cases hvar : u.asVar? with
  | none =>
    refine .pure ⟨fun _ h => (by cases h), fun _ v hn => ?_⟩
    rw [Term.asVar?_of_var hn] at hvar
    cases hvar
  | some v =>
    have hv := hu.of_var (Term.node_of_asVar? hvar)
    rw [Option.bind_some, hnamed v hv, if_neg Bool.false_ne_true]
    have hnew : Leads w' (fun w u => w.HasOver (fun x => ∃ v ∈ t.vars, x = v.withId apartId) u)
        (Term.var (v.withId apartId)) :=
      (World.keeps_hasOver w' _).newVar (le_refl w') ⟨v, hv, rfl⟩
    refine hnew.bind fun w'' u' _ hu' => .pure ⟨fun a ha => ?_, fun h => by cases h⟩
    cases ha
    exact hu'

/-! ### Bindings for both sides -/

/-- The renamed variables of the pattern bound as `σ` says, and all others as `θ` says. -/
def bindApart (p : Term) (σ θ : Substitution) : Substitution :=
  ⟨(p.vars.filterMap fun v => (σ.get? v).map (v.withId apartId, ·)) ++ θ.bindings⟩

variable {p : Term}

theorem get?_bindApart (hp : ∀ v ∈ p.vars, ∀ x ∈ p.vars, v.withId apartId = x.withId apartId → v = x)
    (hv : v ∈ p.vars) (hbound : (σ.get? v).isSome) : (bindApart p σ θ).get? (v.withId apartId) = σ.get? v := by
  have hprefix {vs : List Var} (hvs : vs ⊆ p.vars) (hv : v ∈ vs) :
      SortedList.get? (v.withId apartId)
        ((vs.filterMap fun v => (σ.get? v).map (v.withId apartId, ·)) ++ θ.bindings) = σ.get? v := by
    induction vs with
    | nil => cases hv
    | cons x vs ih =>
      have hmem := hvs hv
      obtain ⟨hx, hvs⟩ := List.cons_subset.mp hvs
      cases hxa : σ.get? x with
      | none =>
        rw [List.filterMap_cons_none (by rw [hxa]; rfl)]
        refine ih hvs ((List.mem_cons.mp hv).resolve_left ?_)
        rintro rfl
        rw [hxa] at hbound
        cases hbound
      | some a =>
        rw [List.filterMap_cons_some (by rw [hxa]; rfl), List.cons_append, SortedList.get?_cons]
        split
        · rename_i heq
          rw [← hp x hx v hmem heq, hxa]
        · rename_i hne
          refine ih hvs ((List.mem_cons.mp hv).resolve_left ?_)
          rintro rfl
          exact hne rfl
  exact hprefix (List.Subset.refl _) hv

theorem get?_bindApart_of_ne {x : Var} (hx : ∀ v ∈ p.vars, x ≠ v.withId apartId) :
    (bindApart p σ θ).get? x = θ.get? x := by
  have hprefix {vs : List Var} (hvs : vs ⊆ p.vars) :
      SortedList.get? x ((vs.filterMap fun v => (σ.get? v).map (v.withId apartId, ·)) ++ θ.bindings) = θ.get? x := by
    induction vs with
    | nil => rfl
    | cons y vs ih =>
      obtain ⟨hy, hvs⟩ := List.cons_subset.mp hvs
      cases hya : σ.get? y with
      | none => rw [List.filterMap_cons_none (by rw [hya]; rfl), ih hvs]
      | some a =>
        rw [List.filterMap_cons_some (by rw [hya]; rfl), List.cons_append, SortedList.get?_cons,
          if_neg (hx y hy).symm, ih hvs]
  exact hprefix (List.Subset.refl _)

/-! ### Instances that match -/

/-- The variables of the pattern stay different when they are renamed, and become none of the call. -/
structure ToldApart (p call : Term) : Prop where
  distinct : ∀ v ∈ p.vars, ∀ x ∈ p.vars, v.withId apartId = x.withId apartId → v = x
  foreign : ∀ x ∈ call.vars, x.id ≠ apartId

instance (p call : Term) : Decidable (ToldApart p call) :=
  decidable_of_iff ((∀ v ∈ p.vars, ∀ x ∈ p.vars, v.withId apartId = x.withId apartId → v = x) ∧
    ∀ x ∈ call.vars, x.id ≠ apartId) ⟨fun h => ⟨h.1, h.2⟩, fun h => ⟨h.1, h.2⟩⟩

theorem named_of_isRigid (ht : t.IsRigid) (hv : v ∈ t.vars) : v.isDontCare = false := by
  induction t using Term.induction with
  | h t ih =>
    cases hvar : t.isVar with
    | true =>
      obtain ⟨x, hn⟩ := Term.exists_var hvar
      rw [Term.vars_of_var hn, List.mem_singleton] at hv
      have hrigid := ht.node.2.2 (by
        rw [← Bool.not_eq_true]
        exact fun hg => Term.not_isVar_of_isGround hg hn)
      rw [hn] at hrigid
      simpa [Node.isRigid, hv] using hrigid
    | false =>
      rw [Term.vars_of_not_isVar hvar, ht.frames_eq, List.append_nil] at hv
      obtain ⟨c, hc, hv⟩ := List.mem_flatMap.mp hv
      exact ih c hc (ht.child hc) hv

/-- A part of the pattern and one of the call that read as the same term, each under its bindings, do so under the
bindings for both sides when the part of the pattern is renamed. -/
theorem leads_joint {call q a s : Term} (hapart : ToldApart p call) (hq : q.IsRigid) (ha : a.IsRigid)
    (hqp : q.vars ⊆ p.vars) (hac : a.vars ⊆ call.vars) (hqs : Reads σ q s) (has : Reads θ a s) (hhas : w.Has q) :
    Leads w (fun _ u => Joint (bindApart p σ θ) u a) (apart q) := by
  have hbound {v : Var} (hv : v ∈ q.vars) : (σ.get? v).isSome := by
    obtain ⟨t, ht, -⟩ := hqs.bound v hv
    rw [ht]
    rfl
  have hrenamed (ρ : Substitution) {v : Var} (hv : v ∈ q.vars) :
      (bindApart p σ ρ).get? (v.withId apartId) = σ.get? v :=
    get?_bindApart hapart.distinct (hqp hv) (hbound hv)
  -- With the variables of the pattern bound too, renaming changes nothing that the part reads as.
  have hself {v : Var} (hv : v ∈ q.vars) : (bindApart p σ σ).get? v = σ.get? v := by
    by_cases h : ∃ x ∈ p.vars, v = x.withId apartId
    · obtain ⟨x, hx, rfl⟩ := h
      have heq : x = x.withId apartId := hapart.distinct x hx _ (hqp hv) rfl
      rw [← heq] at hv
      exact (hrenamed σ hv).trans (congrArg σ.get? heq)
    · push Not at h
      exact get?_bindApart_of_ne h
  have hrefines := (always_apart hq fun v hv => (hrenamed σ hv).trans (hself hv).symm).returns
  refine ((leads_apart hhas fun v hv => named_of_isRigid hq hv).and_returns hrefines).mono fun _ u _ ⟨hu, href⟩ => ?_
  refine ⟨href.rigid, ha, s, ?_, ?_⟩
  · refine (href.reads (hqs.of_get? fun v hv => hself hv)).of_get? fun x hx => ?_
    obtain ⟨v, hv, rfl⟩ := hu.vars x hx
    exact (hrenamed θ hv).trans (hrenamed σ hv).symm
  · refine has.of_get? fun x hx => get?_bindApart_of_ne fun v _ h => ?_
    exact hapart.foreign x (hac hx) (by rw [h]; rfl)

section Call
variable {e : Evaluator} {call s : Term} {l l' : String} {ps args : List Term} {sort sort' : SortName} {n m : Nat}

/-- Where the pattern and the call read as one term, the arguments may be unified. -/
theorem eq_true_of_mayUnify (hp : p.IsRigid) (hc : call.IsRigid) (hapart : ToldApart p call)
    (hpn : p.node = .app (.const l) ps sort) (hcn : call.node = .app (.const l') args sort')
    (hps : Reads σ p s) (hcs : Reads θ call s) (hhas : w.Has p)
    (hopen : (args.all fun t => t.isGround && !t.mentions e.functions) = false) {b : Bool}
    (hrun : e.mayUnify p call w.next = (.ok b, m)) : b = true := by
  have hpc : p.children = ps := by rw [Term.children, hpn]; rfl
  have hcc : call.children = args := by rw [Term.children, hcn]; rfl
  have hpairs : List.Forall₂ (fun q a => ∃ s, Reads σ q s ∧ Reads θ a s) ps args := by
    have hpm := (hps.mirrors hp (by rw [Term.isVar, hpn]; rfl)).children
    have hcm := (hcs.mirrors hc (by rw [Term.isVar, hcn]; rfl)).children
    rw [hpc] at hpm
    rw [hcc] at hcm
    exact PairedLists.comp (fun _ s _ h h' => ⟨s, h, h'⟩) hpm hcm.flip
  have hsolves : Leads w (fun _ es => Formula.Solves (bindApart p σ θ) es)
      ((ps.zip args).mapM fun e => do return (← apart e.1, e.2)) := by
    refine Leads.mapM_all (r := fun _ (e : Term × Term) => Joint (bindApart p σ θ) e.1 e.2) (fun _ h => h)
      fun e he w' hw => ?_
    obtain ⟨hq, ha⟩ := List.of_mem_zip he
    obtain ⟨s, hqs, has⟩ := List.forall₂_zip hpairs he
    rw [← hpc] at hq
    rw [← hcc] at ha
    refine (leads_joint hapart (hp.child hq) (hc.child ha) (Term.vars_child hq) (Term.vars_child ha) hqs has
      ((hhas.child hq).mono hw)).bind fun _ u _ hu => .pure hu
  unfold mayUnify at hrun
  rw [hpn, hcn] at hrun
  dsimp only at hrun
  rw [if_neg (by simp [hpairs.length_eq]), if_neg (by rw [hopen]; exact Bool.false_ne_true)] at hrun
  obtain ⟨es, _, hes, hrun⟩ := Build.exists_of_bind hrun
  obtain ⟨f, _, hf, hrun⟩ := Build.exists_of_bind hrun
  obtain ⟨g, _, hg, hrun⟩ := Build.exists_of_bind hrun
  obtain ⟨_, -, -, hes⟩ := hsolves.of_run hes
  have hadmits := (Formula.always_addEquations (Formula.admits_truth e.functions) hes).returns f ⟨_, _, hf⟩
  have hadmits := (Formula.always_simplify hadmits).returns g ⟨_, _, hg⟩
  cases hrun
  rw [hadmits.isFalse]
  rfl

theorem hasGroundKeys_of_isRigid (hp : p.IsRigid) : p.HasGroundKeys := by
  induction p using Term.induction with
  | h p ih =>
    refine Term.hasGroundKeys_iff.mpr ⟨?_, fun c hc => ih c (Term.sides_subset hc) (hp.child (Term.sides_subset hc))⟩
    have hkeys (hground : p.isGround) : ∀ c ∈ p.children, c.isGround := (Term.isGround_iff.mp hground).2.1
    have hrigid := hp.node.2.2
    rw [Term.children] at hkeys
    cases hn : p.node with
    | map ops es base =>
      rw [hn] at hkeys hrigid
      refine List.all_eq_true.mpr fun e he => ?_
      cases hground : p.isGround with
      | true => exact hkeys hground e.1 (List.mem_append_left _ (List.mem_flatMap.mpr ⟨e, he, List.mem_cons_self⟩))
      | false =>
        have h := hrigid hground
        simp only [Node.isRigid, Bool.and_eq_true, List.all_eq_true] at h
        exact h.1.2 e he
    | set ops es base =>
      rw [hn] at hkeys hrigid
      refine List.all_eq_true.mpr fun c hc => ?_
      cases hground : p.isGround with
      | true => exact hkeys hground c (List.mem_append_left _ hc)
      | false => cases hrigid hground
    | _ => rfl

/-- A rule that does not match a call, and whose pattern may not be unified with it, matches no instance of the
call. -/
theorem always_matchAll_nil {L : Labelling} {i k : Nat} (hpattern : L.IsPattern p) (hp : p.IsRigid)
    (hc : call.IsRigid) (hapart : ToldApart p call) (hpn : p.node = .app (.const l) ps sort)
    (hcn : call.node = .app (.const l') args sort') (hheap : Term.AreHeap n [p])
    (hnone : (matchAll p call).result? i = some []) (hunify : (e.mayUnify p call).result? n = some false)
    (hθ : ∀ v u, θ.get? v = some u → u.sort.subsortOf v.sort) (hs : (θ.apply call).result? k = some s)
    (hsubject : L.IsSubject s) : Always (matchAll p s) (· = []) := by
  have hends := Matching.ends_matchAll hpattern.hasPlainKeys hsubject.isCompared
  intro j
  obtain ⟨σs, j', hrun, hsettled⟩ := hends j
  refine ⟨σs, j', hrun, ?_⟩
  cases hopen : args.all fun t => t.isGround && !t.mentions e.functions with
  | true =>
    -- The call is its own instance, and a match does not depend on how nodes are numbered.
    have hground : call.isGround := by
      refine Term.isGround_iff.mpr ⟨by rw [Term.isVar, hcn]; rfl, fun c hm => ?_, hc.frames_eq⟩
      rw [Term.children, hcn] at hm
      exact ((Bool.and_eq_true _ _).mp (List.all_eq_true.mp hopen c hm)).1
    rw [Substitution.apply, Term.substitute_of_isGround hground] at hs
    cases hs
    obtain ⟨i', hnone⟩ := Build.exists_run hnone
    have hsame := (Matching.concur_matchAll (hasGroundKeys_of_isRigid hp) (BEq.refl call)).agree i j
    rw [hnone, hrun] at hsame
    obtain ⟨_, hσs, hsame⟩ := hsame.exists_right
    cases hσs
    cases hsame
    rfl
  | false =>
    refine List.eq_nil_iff_forall_not_mem.mpr fun σ hσ => ?_
    have hread : Reads σ p s := (Matching.matchAll_readable L p s).of_eq hrun σ hσ (hsettled σ hσ) hpattern hsubject
    have hinstance : Reads θ call s := (Matching.always_reads hθ hc).returns.of_result? hs hsubject.isGround
    have hhas := World.has_ofHeap hheap p (List.mem_singleton_self p)
    obtain ⟨m, hunify⟩ := Build.exists_run hunify
    cases eq_true_of_mayUnify hp hc hapart hpn hcn hread hinstance hhas hopen hunify

end Call

namespace Successors

/-- The application of `label` in the node `id`. -/
def apply (id : Nat) (label : String) (t : Term) : Term := ⟨{ id }, .app (.const label) [t] .kItem⟩

def unknown (id : Nat) (name : String) : Term := ⟨{ id }, .var { name, sort := .kItem }⟩

/-- A pattern for one kind of argument, and a call with another kind, which is not known all the way. -/
def pattern : Term := apply 3 "f" (apply 2 "g" (unknown 1 "X"))
def otherCall : Term := apply 6 "f" (apply 5 "h" (unknown 4 "X"))

def values : Substitution := ⟨[({ name := "X", sort := .kItem }, .constant "a")]⟩

end Successors

set_option maxRecDepth 100000

open Successors in
theorem always_matchAll_nil_other : ∃ s, (values.apply otherCall).result? 10 = some s ∧
    Always (matchAll pattern s) (· = []) := by
  have h : ((values.apply otherCall).result? 10).any (fun s => decide (Matching.labelling.IsSubject s)) = true := by
    decide
  obtain ⟨s, hs, hsubject⟩ := (Option.any_eq_true ..).mp h
  have hsorts : ∀ e ∈ values.bindings, e.2.sort.subsortOf e.1.sort := by decide
  have hmatches : ((matchAll pattern otherCall).result? 10).any List.isEmpty = true := by decide
  obtain ⟨σs, hnone, hempty⟩ := (Option.any_eq_true ..).mp hmatches
  rw [List.isEmpty_iff.mp hempty] at hnone
  have hunify : ((Evaluator.ofRules default []).mayUnify pattern otherCall).result? 10 = some false := by decide
  exact ⟨s, hs, always_matchAll_nil (L := Matching.labelling) (by decide) (by decide) (by decide) (by decide)
    rfl rfl (by decide) hnone hunify (fun _ _ hu => hsorts _ (Substitution.mem_bindings hu)) hs
    (of_decide_eq_true hsubject)⟩

end Evaluator

/-! ### Calls that a skipped rule applies to -/

namespace Definition

/-- A function with a rule for which the first two arguments do not matter. -/
def blankArguments : SourceDefinition where
  main := "M"
  modules := [{ name := "M", sentences := [
    .production { label := "f", sort := .kItem, arity := 3, attributes := Attributes.flag {} "function" },
    .rule { body := .rewrite (.apply "f" [blank, blank, .apply "a" [] {}] {}) (.apply "b" [] {}) {} }] }]
where
  blank : SourceTerm := .varOfSort "_" .k

/-- A call with different first arguments and a last one that is not known, and what that may be. -/
def blankCall : SourceTerm := .apply "f" [.apply "b" [] {}, .apply "c" [] {}, .varOfSort "Z" .k] {}

def lastArgument : Substitution := ⟨[({ name := "Z", sort := .k }, .constant "a")]⟩

/-- Whether the rule is skipped for the call. -/
def skips (d : Definition) (call : Term) (r : Rule) : Bool :=
  ((matchAll r.left call).result? 100).any List.isEmpty &&
    (d.evaluator.mayUnify r.left call).result? 100 == some false

/-- Arguments that do not matter are renamed to one variable, so a rule is skipped though it matches an instance
of the call. -/
theorem exists_skipped : ∃ (d : Definition) (call s : Term) (r : Rule) (σs : List Substitution),
    compiled? {} blankArguments = some d ∧ d.lowered? blankCall = some call ∧
      r ∈ Evaluator.filed "f" d.evaluator.functionRules ∧ (matchAll r.left call).result? 100 = some [] ∧
      (d.evaluator.mayUnify r.left call).result? 100 = some false ∧
      (lastArgument.apply call).result? 100 = some s ∧ s.isGround ∧
      (matchAll r.left s).result? 200 = some σs ∧ σs ≠ [] := by
  have h : ((compiled? {} blankArguments).any fun d => (d.lowered? blankCall).any fun call =>
      ((lastArgument.apply call).result? 100).any fun s => s.isGround &&
        (Evaluator.filed "f" d.evaluator.functionRules).any fun r => d.skips call r &&
          ((matchAll r.left s).result? 200).any fun σs => !σs.isEmpty) = true := by
    decide +kernel
  obtain ⟨d, hd, h⟩ := (Option.any_eq_true ..).mp h
  obtain ⟨call, hcall, h⟩ := (Option.any_eq_true ..).mp h
  obtain ⟨s, hs, h⟩ := (Option.any_eq_true ..).mp h
  obtain ⟨hground, h⟩ := (Bool.and_eq_true _ _).mp h
  obtain ⟨r, hr, h⟩ := List.any_eq_true.mp h
  obtain ⟨hskips, h⟩ := (Bool.and_eq_true _ _).mp h
  obtain ⟨σs, hσs, h⟩ := (Option.any_eq_true ..).mp h
  obtain ⟨hnone, hunify⟩ := (Bool.and_eq_true _ _).mp hskips
  obtain ⟨none, hnone, hempty⟩ := (Option.any_eq_true ..).mp hnone
  rw [List.isEmpty_iff.mp hempty] at hnone
  exact ⟨d, call, s, r, σs, hd, hcall, hr, hnone, beq_iff_eq.mp hunify, hs, hground, hσs, by simpa using h⟩

end Definition

end RuleCompiler
