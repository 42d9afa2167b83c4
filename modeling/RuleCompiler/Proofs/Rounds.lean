import RuleCompiler.Proofs.Rounds.Numbered
import RuleCompiler.Proofs.Session

/-! # Rounds of evaluation

The equations are evaluated round after round. A round that changes none of them would change none later either, so
the rounds that the options allow come to a fixpoint unless each of them changes some equation. -/

namespace RuleCompiler

open Build (From)

variable {n m k : Nat}

/-! ### One round -/

/-- What a loop gives in each step is given again by a run that is ahead. -/
theorem Build.mapM_again {α β : Type} {P : β → Prop} {f : α → Build β} {lead : Nat} : ∀ {l : List α},
    (∀ a ∈ l, ∀ k b m, n ≤ k → f a k = (.ok b, m) → P b → n ≤ m ∧ f a (k + lead) = (.ok b, m + lead)) →
      ∀ {k bs m}, n ≤ k → l.mapM f k = (.ok bs, m) → (∀ b ∈ bs, P b) → l.mapM f (k + lead) = (.ok bs, m + lead)
  | [], _, k, bs, m, _, hrun, _ => by
    rw [List.mapM_nil] at hrun ⊢
    cases hrun
    rfl
  | a :: l, h, k, bs, m, hk, hrun, hbs => by
    rw [List.mapM_cons] at hrun ⊢
    obtain ⟨b, i, hfirst, hrun⟩ := exists_of_bind hrun
    obtain ⟨cs, j, hrest, hrun⟩ := exists_of_bind hrun
    cases hrun
    obtain ⟨hb, hcs⟩ := List.forall_mem_cons.mp hbs
    obtain ⟨hi, hagain⟩ := h a List.mem_cons_self k b i hk hfirst hb
    have hagain' := mapM_again (fun c hc => h c (List.mem_cons_of_mem a hc)) hi hrest hcs
    exact (bind_eq hagain).trans (bind_eq hagain')

namespace Definition
variable {d d' d₁ : Definition} {s s' s₁ : Session} {fuel : Nat} {changes : List (Option Rule)} {exhausted : Bool}
  {chosen : RuleKind → Bool}

/-- The numbers of all nodes of its rules were given out before `n`. -/
def IsNumbered (n : Nat) (d : Definition) : Prop := ∀ r ∈ d.rules, r.IsNumbered n

theorem IsNumbered.mono (hm : n ≤ m) (h : d.IsNumbered n) : d.IsNumbered m := fun r hr => (h r hr).mono hm

theorem mem_rules_of_headed {kind : RuleKind} {r : Rule} (h : r ∈ (Evaluator.headed kind d.rules).map (·.2)) :
    r ∈ d.rules := by
  obtain ⟨p, hp, rfl⟩ := List.mem_map.mp h
  obtain ⟨r, hr, hp⟩ := List.mem_filterMap.mp hp
  obtain ⟨_, -, rfl⟩ := Option.map_eq_some_iff.mp hp
  exact List.mem_of_mem_filter hr

theorem IsNumbered.evaluator (h : d.IsNumbered n) : ∀ t ∈ d.evaluator.terms, t.IsNumbered n := by
  intro t ht
  obtain ⟨r, hr, ht⟩ := List.mem_flatMap.mp ht
  rw [Evaluator.equations, List.map_append, List.mem_append] at hr
  refine h r (hr.elim mem_rules_of_headed mem_rules_of_headed) t ?_
  simp only [Rule.evaluated, List.mem_cons, List.mem_append] at ht
  simp only [Rule.parts, Rule.terms, List.mem_append, List.mem_cons]
  tauto

/-- What a round changes is numbered. -/
theorem from_evaluateRules (h : d.IsNumbered n) :
    From n (fun k p => ∀ o ∈ p.1, ∀ r ∈ o, r.IsNumbered k) (d.evaluateRules chosen fuel) := by
  unfold evaluateRules
  have hresults : From n (fun k results => ∀ p ∈ results, ∀ r ∈ p.1, r.IsNumbered k) (d.rules.mapM fun r =>
      if chosen r.kind then (d.evaluator.evaluateRule? r).run { fuel } else return (none, { fuel })) := by
    refine From.mapM_all (fun hm hp r hr => (hp r hr).mono hm) fun r hr k hk => ?_
    refine .ite (fun _ => ?_) fun _ => .pure fun _ h => nomatch h
    intro p i hrun
    exact Evaluator.numbered_evaluateRule? h.evaluator hk (h r hr) hrun
  refine hresults.bind fun k results _ hresults => .pure fun o ho => ?_
  obtain ⟨p, hp, rfl⟩ := List.mem_map.mp ho
  exact hresults p hp

/-- A round that changes no rule changes none later either. -/
theorem evaluateRules_again (h : d.IsNumbered n) (hrun : d.evaluateRules chosen fuel n = (.ok (changes, exhausted), m))
    (hnone : ∀ o ∈ changes, o = none) (lead : Nat) :
    d.evaluateRules chosen fuel (n + lead) = (.ok (changes, exhausted), m + lead) := by
  obtain ⟨results, i, hresults, hrun⟩ := Build.exists_of_bind hrun
  cases hrun
  refine Build.bind_eq (Build.mapM_again (P := fun p => p.1 = none) (fun r hr k p i hk hrule hp => ?_) (Nat.le_refl n)
    hresults fun p hp => hnone p.1 (List.mem_map.mpr ⟨p, hp, rfl⟩))
  obtain ⟨o, c⟩ := p
  obtain rfl : o = none := hp
  by_cases hchosen : chosen r.kind
  · rw [if_pos hchosen] at hrule ⊢
    obtain ⟨hki, -⟩ := Evaluator.numbered_evaluateRule? h.evaluator hk (h r hr) hrule
    exact ⟨Nat.le_trans hk hki, Evaluator.evaluateRule?_again h.evaluator hk (h r hr) hrule lead⟩
  · rw [if_neg hchosen] at hrule ⊢
    cases hrule
    exact ⟨hk, rfl⟩

/-! ### Round after round -/

theorem from_renameFresh {before : String} {r : Rule} (h : r.IsNumbered s.nodes) :
    SessionM.From s (fun s r => r.IsNumbered s.nodes) (r.renameFresh before) := by
  have hrename (v : Var) (before : String) (s : Session) :
      SessionM.From s (fun _ _ => True) (Session.rename v before) := by
    intro w s' hrun
    cases hrun
    exact ⟨⟨rfl, rfl, Nat.le_refl _⟩, trivial⟩
  have hnames : SessionM.From s (fun _ names => ∀ p ∈ names, True) (r.freshNames before) :=
    SessionM.From.mapM_all (fun _ _ => trivial) fun v _ s₁ _ => (hrename v _ s₁).bind fun _ _ _ _ => .pure trivial
  unfold Rule.renameFresh
  exact hnames.bind fun s₁ names hs₁ _ => .lift (Rule.from_rename_numbered names (h.mono hs₁.nodes))

/-- The rules that take the place of others are numbered if what is made of the changes is. -/
theorem from_replaceRules (h : d.IsNumbered s.nodes) (hchanges : ∀ o ∈ changes, ∀ r ∈ o, r.IsNumbered s.nodes)
    {f : Rule → SessionM Rule}
    (hf : ∀ r s, r.IsNumbered s.nodes → SessionM.From s (fun s r => r.IsNumbered s.nodes) (f r)) :
    SessionM.From s (fun s d => d.IsNumbered s.nodes) (d.replaceRules changes f) := by
  unfold replaceRules
  refine (SessionM.From.mapM_all (fun hs h => h.mono hs.nodes) fun p hp s₁ hs₁ => ?_).bind fun s₂ rules _ hrules =>
    .pure hrules
  obtain ⟨r, change⟩ := p
  obtain ⟨hr, hchange⟩ := List.of_mem_zip hp
  cases change with
  | some r' => exact hf r' s₁ ((hchanges _ hchange r' rfl).mono hs₁.nodes)
  | none => exact .pure ((h r hr).mono hs₁.nodes)

/-- A round on the equations, from the node with the number `n` on, changes none of them. -/
def IsFixpoint (fuel n : Nat) (d : Definition) : Prop :=
  ∃ changes exhausted m, d.evaluateRules RuleKind.isEquation fuel n = (.ok (changes, exhausted), m) ∧
    ∀ o ∈ changes, o = none

/-- So many rounds on the equations, one after the other, each of which changes some of them. -/
inductive ChangesFor (fuel : Nat) : Nat → Definition → Session → Definition → Session → Prop where
  | zero (d : Definition) (s : Session) : ChangesFor fuel 0 d s d s
  | succ {k m : Nat} {d d' d₁ : Definition} {s s' s₁ : Session} {changes : List (Option Rule)} {exhausted : Bool}
      (hround : d.evaluateRules RuleKind.isEquation fuel s.nodes = (.ok (changes, exhausted), m))
      (hchange : ∃ o ∈ changes, o ≠ none)
      (hreplace : d.replaceRules changes (Rule.renameFresh "") { s with nodes := m } = (.ok d', s'))
      (hrest : ChangesFor fuel k d' s' d₁ s₁) : ChangesFor fuel (k + 1) d s d₁ s₁

/-- Rounds go on until one changes nothing or no more are allowed. -/
theorem rounds_of_evaluateEquations {rounds rounds' : Rounds} (hd : rounds.definition.IsNumbered s.nodes)
    (hconverged : rounds.converged = false) (hrun : evaluateEquations fuel n rounds s = (.ok rounds', s')) :
    ∃ k s₁, ChangesFor fuel k rounds.definition s rounds'.definition s₁ ∧ k ≤ n ∧
      (rounds'.converged = true ↔ k < n) ∧ s.Later s' ∧ rounds'.definition.IsNumbered s'.nodes ∧
      (k < n → ∀ m ≥ s₁.nodes, rounds'.definition.IsFixpoint fuel m) := by
  induction n generalizing rounds s with
  | zero =>
    cases hrun
    exact ⟨0, _, .zero _ _, Nat.le_refl 0, by simp [hconverged], .refl _, hd, fun h => (Nat.not_lt_zero 0 h).elim⟩
  | succ n ih =>
    rw [evaluateEquations] at hrun
    obtain ⟨⟨changes, exhausted⟩, s₁, hlift, hrun⟩ := SessionM.exists_of_bind hrun
    obtain ⟨m, hround, rfl⟩ := SessionM.exists_of_lift hlift
    obtain ⟨hm, hchanges⟩ := from_evaluateRules hd _ m hround
    have hlater : s.Later { s with nodes := m } := ⟨rfl, rfl, hm⟩
    dsimp only at hrun
    generalize hcount : (changes.filter (·.isSome)).length = count at hrun
    cases count with
    | zero =>
      have hnone : ∀ o ∈ changes, o = none := by
        intro o ho
        cases o with
        | none => rfl
        | some r => exact absurd (List.mem_filter.mpr ⟨ho, rfl⟩) (by rw [List.length_eq_zero_iff.mp hcount]; simp)
      cases hrun
      refine ⟨0, s, .zero _ _, Nat.zero_le _, by simp, hlater, hd.mono hm, fun _ i hi => ?_⟩
      obtain ⟨lead, rfl⟩ := Nat.exists_eq_add_of_le hi
      exact ⟨changes, exhausted, m + lead, evaluateRules_again hd hround hnone lead, hnone⟩
    | succ count =>
      obtain ⟨d', s₂, hreplace, hrun⟩ := SessionM.exists_of_bind hrun
      obtain ⟨hs₂, hd'⟩ := from_replaceRules (s := { s with nodes := m }) (hd.mono hm) hchanges
        (fun r s => from_renameFresh) d' s₂ hreplace
      have hchange : ∃ o ∈ changes, o ≠ none := by
        obtain ⟨o, ho⟩ := List.exists_mem_of_length_pos (Nat.lt_of_lt_of_eq (Nat.succ_pos count) hcount.symm)
        obtain ⟨ho, hsome⟩ := List.mem_filter.mp ho
        exact ⟨o, ho, Option.ne_none_iff_isSome.mpr hsome⟩
      obtain ⟨k, s₃, hrest, hk, hiff, hs', hnumbered, hfix⟩ := ih (by exact hd') (by exact hconverged) hrun
      refine ⟨k + 1, s₃, .succ hround hchange hreplace hrest, Nat.succ_le_succ hk, ?_, hlater.trans (hs₂.trans hs'),
        hnumbered, fun h => hfix (Nat.lt_of_succ_lt_succ h)⟩
      rw [hiff, Nat.succ_lt_succ_iff]

end Definition

/-- The warning that the equations kept changing is reported exactly when each of the rounds that the options allow
changed some equation. If it is not, a further round on the equations as they are left changes none of them. So it is
reported whenever a further round would, and otherwise only when the fixpoint was reached in the last round allowed,
after which no round is left to show it. -/
theorem Pass.partialEvaluation_warns {d d' : Definition} {s s' : Session} {changed : Nat} (hd : d.IsNumbered s.nodes)
    (hrun : Pass.partialEvaluation.run d s = (.ok (d', changed), s')) :
    ∃ (k : Nat) (d₁ : Definition) (s₁ : Session) (warnings : List Diagnostic),
      d.ChangesFor s.options.fuel k s d₁ s₁ ∧ k ≤ s.options.maxRounds ∧
      s'.queue = warnings.foldl DiagnosticQueue.add s.queue ∧
      warnings.filter (·.code == .noFixpoint) =
        (if k = s.options.maxRounds then [noFixpointWarning s.options.maxRounds] else []) ∧
      (k < s.options.maxRounds → ∀ m ≥ s₁.nodes, d₁.IsFixpoint s.options.fuel m) := by
  obtain ⟨_, _, hget, hrun⟩ := SessionM.exists_of_bind hrun
  cases hget
  obtain ⟨rounds, s₂, hrounds, hrun⟩ := SessionM.exists_of_bind hrun
  obtain ⟨k, s₁, hchanges, hk, hiff, hlater, hnumbered, hfix⟩ := Definition.rounds_of_evaluateEquations hd rfl hrounds
  have hrun := SessionM.of_reportIf.symm.trans hrun
  obtain ⟨⟨changes, exhausted⟩, s₃, hlift, hrun⟩ := SessionM.exists_of_bind hrun
  obtain ⟨m, hround, rfl⟩ := SessionM.exists_of_lift hlift
  obtain ⟨hm, hnew⟩ := Definition.from_evaluateRules hnumbered _ m hround
  obtain ⟨d₂, s₄, hreplace, hrun⟩ := SessionM.exists_of_bind hrun
  obtain ⟨hs₄, -⟩ := Definition.from_replaceRules (hnumbered.mono hm) hnew (fun r s hr => .pure hr) d₂ s₄ hreplace
  have hrun := SessionM.of_reportIf.symm.trans hrun
  cases hrun
  refine ⟨k, rounds.definition, s₁,
    (if (!rounds.converged) = true then [noFixpointWarning s.options.maxRounds] else []) ++
      if (rounds.exhausted || exhausted) = true then [outOfFuelWarning s.options.fuel] else [],
    hchanges, hk, ?_, ?_, hfix⟩
  · rw [List.foldl_append, ← hlater.queue]
    exact congrArg (fun q => List.foldl DiagnosticQueue.add q _) hs₄.queue
  · have hlast : (!rounds.converged) = true ↔ k = s.options.maxRounds := by
      rw [Bool.not_eq_true', ← Bool.not_eq_true, hiff]
      omega
    have hother : ((if (rounds.exhausted || exhausted) = true then [outOfFuelWarning s.options.fuel] else []).filter
        (·.code == .noFixpoint)) = [] := by
      split <;> rfl
    rw [List.filter_append, hother, List.append_nil]
    simp only [hlast]
    split <;> rfl

/-- A function with one rule, which gives a sum of two numbers. -/
def sumOfOnes : Definition where
  rules :=
    let left : Term := ⟨⟨2, false⟩, .app (.const "f") [⟨⟨1, false⟩, .var ⟨"X", .int, 0⟩⟩] .int⟩
    let right : Term := ⟨⟨3, false⟩, .app (.const "_+Int_") [.int 1, .int 1] .int⟩
    [{ kind := .function, body := ⟨⟨4, false⟩, .rewrite left right⟩, left, right, lookups := .truth }]
  fuel := 0

theorem isNumbered_sumOfOnes : sumOfOnes.IsNumbered 5 := by
  unfold Definition.IsNumbered Rule.IsNumbered Term.IsNumbered Term.HasNumber
  decide

theorem Pass.partialEvaluation_warns_sumOfOnes :
    let s : Session := { options := { maxRounds := 2 }, nodes := 5 }
    sumOfOnes.IsNumbered s.nodes ∧ ∃ d' changed s', Pass.partialEvaluation.run sumOfOnes s = (.ok (d', changed), s') ∧
      s'.queue.recorded = [] ∧ ∃ k d₁ s₁ warnings, sumOfOnes.ChangesFor s.options.fuel k s d₁ s₁ ∧ k ≤ 2 ∧
        s'.queue = List.foldl DiagnosticQueue.add s.queue warnings ∧
        warnings.filter (·.code == .noFixpoint) = (if k = 2 then [noFixpointWarning 2] else []) ∧
        (k < 2 → ∀ m ≥ s₁.nodes, d₁.IsFixpoint s.options.fuel m) := by
  intro s
  have h : ((Session.run s.options (Pass.partialEvaluation.run sumOfOnes)).result? s.nodes).any
      (fun e => e.2.queue.recorded.isEmpty) = true := by
    decide
  obtain ⟨⟨d', changed⟩, s', hrun, hqueue⟩ := SessionM.exists_run h
  exact ⟨isNumbered_sumOfOnes, d', changed, s', hrun, List.isEmpty_iff.mp hqueue,
    partialEvaluation_warns isNumbered_sumOfOnes hrun⟩

/-- With one round allowed the warning is reported, though a further round would change nothing. -/
theorem Pass.exists_warning_at_fixpoint :
    let s : Session := { options := { maxRounds := 1 }, nodes := 5 }
    ∃ d' changed s', Pass.partialEvaluation.run sumOfOnes s = (.ok (d', changed), s') ∧
      s'.queue.recorded = [noFixpointWarning 1] ∧ d'.IsFixpoint s.options.fuel s'.nodes := by
  intro s
  have h : ((Session.run s.options (Pass.partialEvaluation.run sumOfOnes)).result? s.nodes).any (fun e =>
      e.2.queue.recorded == [noFixpointWarning 1] &&
        ((e.1.1.evaluateRules RuleKind.isEquation s.options.fuel).result? e.2.nodes).any
          fun round => round.1.all (·.isNone)) = true := by
    decide +kernel
  obtain ⟨⟨d', changed⟩, s', hrun, h⟩ := SessionM.exists_run h
  obtain ⟨hqueue, h⟩ := (Bool.and_eq_true _ _).mp h
  obtain ⟨⟨changes, exhausted⟩, hround, h⟩ := (Option.any_eq_true ..).mp h
  obtain ⟨m, hround⟩ := Build.exists_run hround
  exact ⟨d', changed, s', hrun, beq_iff_eq.mp hqueue, changes, exhausted, m, hround,
    fun o ho => Option.isNone_iff_eq_none.mp (List.all_eq_true.mp h o ho)⟩

end RuleCompiler
