import RuleCompiler.Proofs.Expansion.Rules

/-! # Normal forms

Expansion ends for every term, with a normal form or with a report that it goes beyond the limit. So what the pass
leaves of the rules is in normal form, and the rules that it drops are those with a term that has no normal form
within the limit. -/

namespace RuleCompiler

open Build (Always From Gives)
open MonadAttach (CanReturn)

/-! ### Runs over all rules -/

namespace RuleOutcome

/-- The report on a rule that is dropped. -/
def diagnostic? : RuleOutcome → Option Diagnostic
  | dropped d => some d
  | _ => none

theorem report_eq (o : RuleOutcome) (s : Session) :
    o.report s = (.ok (), { s with queue := o.diagnostic?.toList.foldl DiagnosticQueue.add s.queue }) := by
  cases o <;> rfl

theorem rules_of_kept (rules : List Rule) :
    (rules.zip (rules.map fun _ => kept)).filterMap (fun p => p.2.rule? p.1) = rules := by
  induction rules with
  | nil => rfl
  | cons r rules ih =>
    rw [List.map_cons, List.zip_cons_cons, List.filterMap_cons, ih]
    rfl

end RuleOutcome

namespace Definition
variable {d d' : Definition} {f : Rule → Build RuleOutcome} {s s' : Session} {changes : Nat}
  {S : Rule → RuleOutcome → Prop} {n : Nat}

/-- What stands before an outcome: it is computed and reported. -/
theorem exists_outcomes : ∀ {rules : List Rule} {s : Session} {es : List (Rule × RuleOutcome)},
    (∀ r ∈ rules, ∀ k, n ≤ k → From k (fun _ => S r) (f r)) → n ≤ s.nodes →
      (rules.mapM fun r => do
        let outcome ← (f r : SessionM RuleOutcome)
        outcome.report
        return (r, outcome)) s = (.ok es, s') →
      ∃ outcomes, List.Forall₂ S rules outcomes ∧ es = rules.zip outcomes ∧
        s'.queue = (outcomes.filterMap RuleOutcome.diagnostic?).foldl DiagnosticQueue.add s.queue
  | [], s, es, _, _, hrun => by
    cases hrun
    exact ⟨[], .nil, rfl, rfl⟩
  | r :: rules, s, es, h, hn, hrun => by
    rw [List.mapM_cons] at hrun
    obtain ⟨e, s₁, hstep, hrun⟩ := SessionM.exists_of_bind hrun
    obtain ⟨es', s₂, hrest, hrun⟩ := SessionM.exists_of_bind hrun
    cases hrun
    obtain ⟨o, s₃, hlift, hstep⟩ := SessionM.exists_of_bind hstep
    obtain ⟨k, hf, rfl⟩ := SessionM.exists_of_lift hlift
    obtain ⟨hk, ho⟩ := h r List.mem_cons_self s.nodes hn o k hf
    rw [SessionM.bind_eq (o.report_eq _)] at hstep
    cases hstep
    obtain ⟨outcomes, houtcomes, rfl, hqueue⟩ := exists_outcomes (s := _)
      (fun r' hr' => h r' (List.mem_cons_of_mem r hr')) (Nat.le_trans hn hk) hrest
    refine ⟨o :: outcomes, .cons ho houtcomes, rfl, ?_⟩
    rw [hqueue, List.filterMap_cons]
    cases o.diagnostic? <;> rfl

/-- A run over all rules has an outcome for each; the rules that are left are those of the outcomes, and the
reports are added in order. -/
theorem exists_of_eachRule (h : ∀ r ∈ d.rules, ∀ k, n ≤ k → From k (fun _ => S r) (f r)) (hn : n ≤ s.nodes)
    (hrun : d.eachRule (fun r => f r) s = (.ok (d', changes), s')) :
    ∃ outcomes, List.Forall₂ S d.rules outcomes ∧
      d' = { d with rules := (d.rules.zip outcomes).filterMap fun e => e.2.rule? e.1 } ∧
      s'.queue = (outcomes.filterMap RuleOutcome.diagnostic?).foldl DiagnosticQueue.add s.queue := by
  obtain ⟨es, s₁, hloop, hrun⟩ := SessionM.exists_of_bind hrun
  cases hrun
  obtain ⟨outcomes, houtcomes, rfl, hqueue⟩ := exists_outcomes h hn hloop
  exact ⟨outcomes, houtcomes, rfl, hqueue⟩

theorem eachRule_ends (h : ∀ r ∈ d.rules, ∀ k, n ≤ k → Gives k (fun _ _ => True) (f r)) (hn : n ≤ s.nodes) :
    ∃ e s', d.eachRule (fun r => f r) s = (.ok e, s') := by
  have hloop : ∀ (rules : List Rule) (s : Session), (∀ r ∈ rules, ∀ k, n ≤ k → Gives k (fun _ _ => True) (f r)) →
      n ≤ s.nodes → ∃ es s', (rules.mapM fun r => do
        let outcome ← (f r : SessionM RuleOutcome)
        outcome.report
        return (r, outcome)) s = (.ok es, s') := by
    intro rules
    induction rules with
    | nil => exact fun s _ _ => ⟨[], s, rfl⟩
    | cons r rules ih =>
      intro s h hn
      obtain ⟨o, k, hf, hk, -⟩ := h r List.mem_cons_self s.nodes hn
      obtain ⟨es, s', hrest⟩ := ih
        { s with nodes := k, queue := o.diagnostic?.toList.foldl DiagnosticQueue.add s.queue }
        (fun r' hr' => h r' (List.mem_cons_of_mem r hr')) (Nat.le_trans hn hk)
      refine ⟨(r, o) :: es, s', ?_⟩
      simp only [List.mapM_cons, bind_assoc, pure_bind]
      rw [SessionM.bind_eq (SessionM.lift_eq hf), SessionM.bind_eq (o.report_eq _), SessionM.bind_eq hrest]
      rfl
  obtain ⟨es, s', hrun⟩ := hloop d.rules s h hn
  exact ⟨_, s', SessionM.bind_eq hrun _⟩

/-- The terms of all rules, with the right sides. -/
def terms (d : Definition) : List Term := d.rules.flatMap fun r => r.right :: r.terms

end Definition

namespace Expander
variable {e : Expander} {d : Definition} {s s' : Session}

/-- What is left of a run over the rules: each is treated by what its terms expand to, in order, and those that are
dropped are reported. -/
structure Leaves (e : Expander) (d : Definition) (s : Session) (d' : Definition) (s' : Session)
    (outcomes : List RuleOutcome) : Prop where
  treats : List.Forall₂ e.Treats d.rules outcomes
  rules : d' = { d with rules := (d.rules.zip outcomes).filterMap fun p => p.2.rule? p.1 }
  reports : s'.queue = (outcomes.filterMap RuleOutcome.diagnostic?).foldl DiagnosticQueue.add s.queue

theorem Leaves.isNormal (he : e.IsPlain) {d' : Definition} {outcomes : List RuleOutcome}
    (h : e.Leaves d s d' s' outcomes) : ∀ r ∈ d'.rules, r.kind ≠ .expansion → ∀ t ∈ r.terms, e.IsNormal t := by
  rw [h.rules]
  intro r' hr' hkind
  obtain ⟨p, hp, hrule⟩ := List.mem_filterMap.mp hr'
  exact ((List.forall₂_iff_zip.mp h.treats).2 hp).isNormal he hrule hkind

/-- Where no term has a redex, no rule needs to be looked at. -/
theorem leaves_self (he : e.IsPlain) (hrules : e.rules = []) (d : Definition) (s : Session) :
    e.Leaves d s d s (d.rules.map fun _ => .kept) := by
  have hself (t : Term) : CanReturn (e.expand t) (.ok t) := by
    have hnormal : e.IsNormal t := by
      rintro u - ⟨r, hr, -⟩
      rw [hrules] at hr
      cases hr
    obtain ⟨r, hr, rfl⟩ := (expand_of_isNormal he hnormal).exists_canReturn
    exact hr
  refine ⟨?_, ?_, ?_⟩
  · refine List.forall₂_map_right_iff.mpr (List.forall₂_same.mpr fun r _ => ?_)
    by_cases hr : r.kind = .expansion
    · exact .exempt hr
    · have hrs : List.Forall₂ (fun t => CanReturn (e.expand t)) r.terms (r.terms.map .ok) :=
        List.forall₂_map_right_iff.mpr (List.forall₂_same.mpr fun t _ => hself t)
      exact .expanded hr hrs (.kept (List.forall₂_same.mpr fun _ _ => BEq.refl _))
  · rw [RuleOutcome.rules_of_kept]
  · have hreports : (d.rules.map fun _ => RuleOutcome.kept).filterMap RuleOutcome.diagnostic? = [] := by
      rw [List.filterMap_map]
      exact List.filterMap_eq_nil_iff.mpr fun _ _ => rfl
    rw [hreports]
    rfl

/-- Expansion ends for every term. What it gives is in normal form, is expanded to itself and was reached within the
limit; what it reports instead is a number of expansions beyond the limit. So the pass leaves rules with terms in
normal form, and drops exactly those with a term that is given up, each with one report. -/
theorem expand_normalizes (he : e.IsPlain) :
    (∀ t, Always (e.expand t) fun r => e.IsWithin 0 t r ∧ ∀ u, r = .ok u → Always (e.expand u) (· = .ok u)) ∧
    ∀ (d : Definition) (s : Session), d.expander s.options.expansionLimit = e → Term.AreHeap s.nodes d.terms →
      (∀ t ∈ d.terms, t.touchesEditable = false) →
      (∀ d' changes s', Pass.expansion.run d s = (.ok (d', changes), s') → ∃ outcomes,
        e.Leaves d s d' s' outcomes ∧ ∀ r ∈ d'.rules, r.kind ≠ .expansion → ∀ t ∈ r.terms, e.IsNormal t) ∧
      ((∀ r ∈ d.rules, r.equations = []) → ∃ r s', Pass.expansion.run d s = (.ok r, s')) := by
  refine ⟨always_expand he, fun d s hd hheap hfrozen => ?_⟩
  have hrun : Pass.expansion.run d s =
      (if e.rules.isEmpty then pure (d, 0) else d.eachRule fun r => e.expandRule r) s := by
    rw [← hd]
    rfl
  have hright : ∀ r ∈ e.rules, r.right ∈ d.terms := by
    intro r hr
    rw [← hd] at hr
    exact List.mem_flatMap.mpr ⟨r, (List.mem_filter.mp hr).1, List.mem_cons_self⟩
  have hterms : ∀ r ∈ d.rules, r.terms ⊆ d.terms := fun r hr t ht =>
    List.mem_flatMap.mpr ⟨r, hr, List.mem_cons_of_mem _ ht⟩
  rw [hrun]
  split
  · rename_i hempty
    have hleaves := leaves_self he (List.isEmpty_iff.mp hempty) d s
    refine ⟨fun d' changes s' h => ?_, fun _ => ⟨_, s, rfl⟩⟩
    cases h
    exact ⟨_, hleaves, hleaves.isNormal he⟩
  · refine ⟨fun d' changes s' h => ?_, fun hequations => ?_⟩
    · have hfrom : ∀ r ∈ d.rules, ∀ k, s.nodes ≤ k → From k (fun _ => e.Treats r) (e.expandRule r) := by
        intro r hr k hk
        by_cases hkind : r.kind = .expansion
        · rw [expandRule, if_pos (by simpa using hkind)]
          exact .pure (.exempt hkind)
        · exact from_expandRule he hheap hfrozen hright (hterms r hr) hk hkind
      obtain ⟨outcomes, htreats, hrules, hreports⟩ := Definition.exists_of_eachRule hfrom (Nat.le_refl _) h
      have hleaves : e.Leaves d s d' s' outcomes := ⟨htreats, hrules, hreports⟩
      exact ⟨outcomes, hleaves, hleaves.isNormal he⟩
    · refine Definition.eachRule_ends (n := s.nodes) (fun r hr k hk => ?_) (Nat.le_refl _)
      by_cases hkind : r.kind = .expansion
      · rw [expandRule, if_pos (by simpa using hkind)]
        exact .pure trivial
      · exact gives_expandRule he hheap hfrozen hright (hterms r hr) hk hkind (hequations r hr)

end Expander

/-- A rule that doubles numbers, one for what holds, and one without an end; a term for the first two, and a term
for the last one. -/
def doublings : Definition where
  rules :=
    let x : Term := ⟨⟨1, false⟩, .var ⟨"X", .int, 0⟩⟩
    let double (id : Nat) (t : Term) : Term := ⟨⟨id, false⟩, .app (.const "double") [t] .int⟩
    let sum : Term := ⟨⟨2, false⟩, .app (.const "sum") [x, x] .int⟩
    let condition : Term := ⟨⟨3, false⟩, .var ⟨"B", .bool, 0⟩⟩
    let holds (id : Nat) (t : Term) : Term := ⟨⟨id, false⟩, .app (.const "holds") [t] .kItem⟩
    let spin : Term := .constant "spin"
    let rule (kind : RuleKind) (id : Nat) (left right : Term) (requires : List Term) : Rule :=
      { kind, body := ⟨⟨id, false⟩, .rewrite left right⟩, requires, left, right, lookups := .truth }
    [rule .expansion 4 (double 5 x) sum [],
      rule .expansion 6 (holds 7 condition) (.constant "yes") [condition],
      rule .expansion 8 spin spin [],
      rule .regular 9 (holds 10 (.token .bool "true")) (double 11 (double 12 (.token .int "2"))) [],
      rule .regular 13 (.constant "start") spin []]
  fuel := 0

theorem Expander.expand_normalizes_doublings :
    let s : Session := { options := { expansionLimit := 4 }, nodes := 14 }
    let e := doublings.expander 4
    ∃ d' changes s' outcomes, Pass.expansion.run doublings s = (.ok (d', changes), s') ∧
      e.Leaves doublings s d' s' outcomes ∧ ∀ r ∈ d'.rules, r.kind ≠ .expansion → ∀ t ∈ r.terms, e.IsNormal t := by
  intro s e
  have he : e.IsPlain := by unfold Expander.IsPlain; decide
  have hheap : Term.AreHeap s.nodes doublings.terms := by decide
  have hfrozen : ∀ t ∈ doublings.terms, t.touchesEditable = false := by decide
  obtain ⟨hruns, hends⟩ := (Expander.expand_normalizes he).2 doublings s rfl hheap hfrozen
  obtain ⟨⟨d', changes⟩, s', hrun⟩ := hends (by decide)
  obtain ⟨outcomes, hleaves, hnormal⟩ := hruns d' changes s' hrun
  exact ⟨d', changes, s', outcomes, hrun, hleaves, hnormal⟩

/-- Four expansions in two rounds make the fourth rule; the last rule goes beyond them. -/
example : (match Pass.expansion.run doublings { options := { expansionLimit := 4 }, nodes := 14 } with
    | (.ok (d, changes), s) => ((d.rules.drop 3).map Rule.render, changes, s.queue.errorCount)
    | (.error _, _) => ([], 0, 0)) = (["rule (yes => sum(sum(2, 2), sum(2, 2)))"], 2, 1) := by decide +kernel

/-- A rule whose set has an element with a variable for the rest of some cells. -/
def strayFrame : Rule :=
  let rest : Var := ⟨"X", .bag, 0⟩
  let count : Term := ⟨⟨1, false⟩, .var ⟨"Y", .int, 0⟩⟩
  let inner : Term := ⟨⟨2, false⟩, .cells [⟨"a", .one, count⟩] [rest]⟩
  let elements : Term := ⟨⟨4, false⟩, .set .set [⟨⟨3, false⟩, .cells [⟨"T", .one, inner⟩] []⟩] []⟩
  let left : Term := ⟨⟨6, false⟩, .app (.const "p") [⟨⟨5, false⟩, .var rest⟩, elements] .kItem⟩
  let right : Term := .constant "c" .bag
  { kind := .expansion, body := ⟨⟨7, false⟩, .rewrite left right⟩, left, right, lookups := .truth }

/-- A term that the rule does not match: the element of its set is a number. -/
def strayTerm : Term :=
  ⟨⟨9, false⟩, .app (.const "p") [.constant "c" .bag, ⟨⟨8, false⟩, .set .set [.token .int "5"] []⟩] .kItem⟩

/-- The variable is bound to a term that is no cells before the element is looked for. This is not taken for a
failure to match, it ends the expansion. -/
theorem Expander.exists_expand_clashes : Term.AreHeap 10 [strayTerm, strayFrame.left, strayFrame.right] ∧
    ∃ (c : Clash) (k : Nat), (⟨[strayFrame], 10⟩ : Expander).expand strayTerm 10 = (.error c, k) := by
  have hheap : Term.AreHeap 10 [strayTerm, strayFrame.left, strayFrame.right] := by decide
  have hclash : ((⟨[strayFrame], 10⟩ : Expander).expand strayTerm).result? 10 = none := by
    rw [← Option.isNone_iff_eq_none]
    decide
  unfold Build.result? at hclash
  split at hclash
  · cases hclash
  · rename_i c hc
    exact ⟨hheap, c, _, Prod.ext hc rfl⟩

end RuleCompiler
