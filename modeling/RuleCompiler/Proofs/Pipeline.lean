import RuleCompiler.Pass.Default
import RuleCompiler.Proofs.Returns

/-! # Passes that other passes need

What a pass needs is looked for among the passes that are registered before it, also where it is disabled.
So a pass runs after everything that it needs as long as what it needs is not disabled, and a required pass
cannot be: the passes that there are need only required ones. -/

namespace RuleCompiler

namespace Pipeline
variable {p : Pipeline} {disabled : List String}

/-! ### Needs -/

theorem mem_of_unmetNeed? {names before : List String} {pass : Pass} (h : unmetNeed? names before pass = none)
    {needed : String} (hn : needed ∈ pass.needs) : needed ∈ before := by
  have hmet := List.findSome?_eq_none_iff.mp h needed hn
  split at hmet
  · cases hmet
  split at hmet
  · cases hmet
  · rename_i hcontains
    simpa using hcontains

/-- Where the check finds nothing, everything that a pass needs is registered before it. -/
theorem mem_of_checkNeeds {names : List String} {front back : List Pass} {pass : Pass} {needed : String} :
    ∀ {before : List String}, checkNeeds names before (front ++ pass :: back) = .ok () → needed ∈ pass.needs →
      needed ∈ before ∨ ∃ q ∈ front, q.name = needed := by
  induction front with
  | nil =>
    intro before h hn
    rw [List.nil_append, checkNeeds] at h
    split at h
    · cases h
    · exact .inl (mem_of_unmetNeed? ‹_› hn)
  | cons q front ih =>
    intro before h hn
    rw [List.cons_append, checkNeeds] at h
    split at h
    · cases h
    rcases ih h hn with hmem | ⟨q', hq', hname⟩
    · rcases List.mem_cons.mp hmem with rfl | hmem
      · exact .inr ⟨q, List.mem_cons_self, rfl⟩
      · exact .inl hmem
    · exact .inr ⟨q', List.mem_cons_of_mem q hq', hname⟩

/-! ### Plans -/

/-- Where nothing is in the way, what runs is what is not disabled. -/
theorem planFrom_eq {ps : List Pass} (h : (planFrom disabled ps).obstacle = none) :
    (planFrom disabled ps).passes = ps.filter fun q => !disabled.contains q.name := by
  induction ps with
  | nil => rfl
  | cons q ps ih =>
    unfold planFrom at h ⊢
    split at h
    · rename_i hq
      rw [if_pos hq, List.filter_cons, if_pos hq]
      exact congrArg (q :: ·) (ih h)
    · rename_i hq
      rw [if_neg hq, List.filter_cons, if_neg hq]
      split at h
      · cases h
      · rename_i hr
        rw [if_neg hr]
        exact ih h

/-- Where nothing is in the way, no required pass is disabled. -/
theorem not_contains_of_isRequired {ps : List Pass} (h : (planFrom disabled ps).obstacle = none) {q : Pass}
    (hq : q ∈ ps) (hr : q.isRequired) : disabled.contains q.name = false := by
  induction ps with
  | nil => cases hq
  | cons q' ps ih =>
    unfold planFrom at h
    split at h
    · rename_i hq'
      rcases List.mem_cons.mp hq with rfl | hq
      · simpa using hq'
      · exact ih h hq
    · split at h
      · cases h
      · rename_i hr'
        rcases List.mem_cons.mp hq with rfl | hq
        · exact absurd hr hr'
        · exact ih h hq

/-- A plan that nothing is in the way of. -/
structure IsClear (p : Pipeline) : Prop where
  needs : checkNeeds p.names [] p.passes = .ok ()
  obstacle : (planFrom p.disabled p.passes).obstacle = none

theorem isClear_of_obstacle (h : p.plan.obstacle = none) : p.IsClear := by
  unfold plan at h
  split at h
  · exact ⟨‹_›, h⟩
  · cases h

namespace IsClear

theorem passes_eq (h : p.IsClear) : p.plan.passes = p.passes.filter fun q => !p.disabled.contains q.name := by
  rw [plan, h.needs]
  exact planFrom_eq h.obstacle

/-- No required pass is skipped. -/
theorem mem_of_isRequired (h : p.IsClear) {q : Pass} (hq : q ∈ p.passes) (hr : q.isRequired) : q ∈ p.plan.passes := by
  rw [h.passes_eq, List.mem_filter, not_contains_of_isRequired h.obstacle hq hr]
  exact ⟨hq, rfl⟩

/-- What a pass needs runs before it, unless it is disabled. -/
theorem exists_before (h : p.IsClear) {before after : List Pass} {q : Pass}
    (hplan : p.plan.passes = before ++ q :: after) {needed : String} (hn : needed ∈ q.needs)
    (hkept : needed ∉ p.disabled) : ∃ q' ∈ before, q'.name = needed := by
  rw [h.passes_eq] at hplan
  obtain ⟨front, rest, hpasses, hfront, hrest⟩ := List.filter_eq_append_iff.mp hplan
  obtain ⟨skipped, back, rfl, hskipped, -, -⟩ := List.filter_eq_cons_iff.mp hrest
  have hneeds := h.needs
  rw [hpasses, ← List.append_assoc] at hneeds
  rcases mem_of_checkNeeds hneeds hn with hmem | ⟨q', hq', rfl⟩
  · cases hmem
  · have hname : (!p.disabled.contains q'.name) = true := by simpa using hkept
    refine ⟨q', ?_, rfl⟩
    rcases List.mem_append.mp hq' with hq' | hq'
    · rw [← hfront]
      exact List.mem_filter.mpr ⟨hq', hname⟩
    · exact absurd hname (hskipped q' hq')

end IsClear

/-! ### Runs -/

theorem isClear_of_run {d : Definition} : Returns (fun r => ∀ d', r = .ok d' → p.IsClear) (p.run d) := by
  refine .bind' fun d' => ?_
  split
  · exact .pure fun _ h => by cases h
  · exact .pure fun _ _ => isClear_of_obstacle ‹_›

/-- Where only required passes are needed, a run that comes to its end skips no required pass, and every pass that
runs does so after those that it needs. -/
theorem needs_of_run {d : Definition}
    (hp : ∀ q ∈ p.passes, ∀ needed ∈ q.needs, ∀ q' ∈ p.passes, q'.name = needed → q'.isRequired) :
    Returns (fun r => ∀ d', r = .ok d' → (∀ q ∈ p.passes, q.isRequired → q ∈ p.plan.passes) ∧
      ∀ before q after, p.plan.passes = before ++ q :: after → ∀ needed ∈ q.needs, ∃ q' ∈ before, q'.name = needed)
      (p.run d) := by
  refine isClear_of_run.mono fun r hr d' hd' => ?_
  have hclear := hr d' hd'
  refine ⟨fun q => hclear.mem_of_isRequired, fun before q after hplan needed hn => ?_⟩
  refine hclear.exists_before hplan hn fun hdisabled => ?_
  have hq : q ∈ p.passes := by
    have hmem : q ∈ p.plan.passes := hplan ▸ List.mem_append_right before List.mem_cons_self
    rw [hclear.passes_eq] at hmem
    exact (List.mem_filter.mp hmem).1
  obtain ⟨front, back, hpasses⟩ := List.append_of_mem hq
  rcases mem_of_checkNeeds (hpasses ▸ hclear.needs) hn with hmem | ⟨q', hq', rfl⟩
  · cases hmem
  · have hq' : q' ∈ p.passes := hpasses ▸ List.mem_append_left _ hq'
    have hkept := not_contains_of_isRequired hclear.obstacle hq' (hp q hq _ hn q' hq' rfl)
    rw [List.contains_eq_mem, decide_eq_false_iff_not] at hkept
    exact hkept hdisabled

/-- The passes that there are need only required ones, in whatever order and however often they are registered. -/
theorem needs_of_builtin {d : Definition} (hp : p.passes ⊆ Pass.all) :
    Returns (fun r => ∀ d', r = .ok d' → (∀ q ∈ p.passes, q.isRequired → q ∈ p.plan.passes) ∧
      ∀ before q after, p.plan.passes = before ++ q :: after → ∀ needed ∈ q.needs, ∃ q' ∈ before, q'.name = needed)
      (p.run d) := by
  have hall : ∀ q ∈ Pass.all, ∀ needed ∈ q.needs, ∀ q' ∈ Pass.all, q'.name = needed → q'.isRequired := by decide
  exact needs_of_run fun q hq needed hn q' hq' => hall q (hp hq) needed hn q' (hp hq')

/-- A pass that does nothing. -/
def idle (name : String) (needs : List String) : Pass := { name, needs, run := fun d => return (d, 0) }

/-- A pass may run though the one that it needs is disabled, which nothing keeps it from where that one is not
required. -/
theorem exists_run_without_need : ∃ (p : Pipeline) (q : Pass) (needed : String),
    (∀ d, p.run d = pure (.ok d)) ∧ p.plan.passes = [q] ∧ needed ∈ q.needs :=
  ⟨⟨[idle "first" [], idle "second" ["first"]], ["first"]⟩, idle "second" ["first"], "first", fun _ => rfl, rfl,
    List.mem_singleton_self _⟩

end Pipeline

end RuleCompiler
