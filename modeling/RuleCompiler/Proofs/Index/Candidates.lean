import RuleCompiler.Firing
import RuleCompiler.Proofs.Compilation
import RuleCompiler.Proofs.Index.Sides

/-! # Candidates

A rule that fires on a subject is among the candidates that the index gives for it, as long as the
index looks at the same place in both: at the computation cell, which the rule names and of which
the subject has one at most, or at the whole term where neither has the cell. -/

namespace RuleCompiler

open Matching
open Term (Tidy)

namespace IndexSettings

/-- What a term is indexed by: its computation cell, where there is one, or the term. -/
def focus (settings : IndexSettings) (t : Term) : Term :=
  (settings.computationCell.bind fun c => t.findCell? c).getD t

/-- Whether the index looks at the same place in a body and in a subject, which is no run where the
body has an operator list. -/
def sees (settings : IndexSettings) (body subject : Term) : Bool :=
  (match settings.computationCell with
    | none => true
    | some k =>
      if (body.findCell? k).isSome then (subject.cellsLabelled k).length ≤ 1
      else (subject.findCell? k).isNone || settings.pairOf body == .top) &&
  !((settings.focus body).isOperatorList && (settings.focus subject).isRun)

variable {settings : IndexSettings} {body left subject : Term}

/-- What matches the left side has a pair that is compatible with that of the body. -/
theorem compatible_of_matched (hfiled : FiledAs body left) (hmatched : Matched settings left subject)
    (hsees : settings.sees body subject) :
    (settings.pair body).compatible (settings.pair subject) := by
  rw [sees, Bool.and_eq_true, Bool.not_eq_true', Bool.and_eq_false_imp] at hsees
  obtain ⟨hcell, hrun⟩ := hsees
  change (settings.pairOf (settings.focus body)).compatible (settings.pairOf (settings.focus subject))
  have hwhole (h : body.isOperatorList → subject.isRun = false) :
      (settings.pairOf body).compatible (settings.pairOf subject) := by
    rw [← hfiled.same.pair settings]
    refine hmatched.agrees.pair ?_
    rwa [hfiled.same.operator]
  unfold focus at hrun ⊢
  cases hk : settings.computationCell with
  | none =>
    rw [hk] at hrun
    exact hwhole hrun
  | some k =>
    rw [hk] at hcell hrun
    simp only [Option.bind_some] at hcell hrun ⊢
    cases hbody : body.findCell? k with
    | some c =>
      obtain ⟨c', hc', hsame⟩ := hfiled.cells k c (Term.mem_of_findCell? hbody)
      obtain ⟨s, hs, hagrees⟩ := hmatched.cells k c' hc'
      have hone : subject.cellsLabelled k = [s] := by
        have hlen : (subject.cellsLabelled k).length ≤ 1 := by simpa [hbody] using hcell
        obtain ⟨x, hx⟩ := List.length_eq_one_iff.mp
          (Nat.le_antisymm hlen (List.length_pos_of_mem hs))
        rw [hx] at hs ⊢
        rw [List.mem_singleton.mp hs]
      have hsubject := Term.findCell?_of_single hone
      rw [hbody, hsubject] at hrun
      rw [hsubject, Option.getD_some, Option.getD_some, ← hsame.pair settings]
      refine hagrees.pair ?_
      rwa [hsame.operator]
    | none =>
      rw [hbody] at hcell hrun
      simp only [Option.isSome_none, Bool.false_eq_true, if_false, Bool.or_eq_true,
        Option.isNone_iff_eq_none, beq_iff_eq] at hcell
      rcases hcell with hsubject | htop
      · rw [hsubject] at hrun ⊢
        exact hwhole hrun
      · rw [Option.getD_none, htop]
        exact IndexPair.top_compatible _

end IndexSettings

/-- What a pattern matches is matched in all that the index relies on. -/
theorem matched_of_matchAll {p s : Term} (settings : IndexSettings) (hp : Tidy false p)
    (hs : s.IsIndexable) :
    Returns (fun σs => ∀ σ ∈ σs, Matched settings p s) (matchAll p s) := by
  refine (matchAll_induction (R := fun _ p s => Tidy false p → s.IsIndexable → Matched settings p s)
    (fun _ _ _ _ _ h => h) (fun σ p s h => matched_of_fits h) p s).mono fun σs h σ hσ => ?_
  exact h σ hσ hp hs

namespace Definition
variable {d : Definition} {id : Nat} {r : Rule} {subject : Term}

/-- A rule fires only where its left side matches. -/
theorem matched_of_fireRule (hr : d.rule? id = some r) (hleft : Tidy false r.left)
    (hs : subject.IsIndexable) :
    Returns (fun fs => fs ≠ [] → Matched d.indexing r.left subject) (d.fireRule id subject) := by
  unfold fireRule
  rw [hr]
  refine (matched_of_matchAll d.indexing hleft hs).bind fun σs hσs => ?_
  cases σs with
  | nil => exact .pure fun h => absurd rfl h
  | cons σ σs => exact (Returns.trivial _).mono fun _ _ _ => hσs σ List.mem_cons_self

/-- Whether the rule fires on the subject, with new nodes numbered from `k`. -/
def fires (d : Definition) (id : Nat) (subject : Term) (k : Nat) : Bool :=
  ((d.fireRule id subject).result? k).any (!·.isEmpty)

theorem matched_of_fires (hr : d.rule? id = some r) (hleft : Tidy false r.left)
    (hs : subject.IsIndexable) {k : Nat} (h : d.fires id subject k) :
    Matched d.indexing r.left subject := by
  obtain ⟨fs, hfs, hne⟩ := (Option.any_eq_true ..).mp h
  refine (matched_of_fireRule hr hleft hs).of_result? hfs ?_
  rintro rfl
  cases hne

/-- In a compiled definition, a regular rule that fires on a subject is a candidate for it, where
the index sees the subject as it sees the body of the rule. -/
theorem mem_candidates_of_fires (hd : d.IsCompiled) (hr : d.rule? id = some r)
    (hk : r.kind = .regular) (hbody : r.body.isLifted) (hs : subject.IsIndexable)
    (hsees : d.indexing.sees r.body subject) {k : Nat} (h : d.fires id subject k) :
    id ∈ d.candidates subject := by
  have hwf : r.WellFormed false := hd.hasWellFormed r (List.mem_of_getElem? hr)
  have hfiled : FiledAs r.body r.left := filedAs_leftSide hbody hwf.body r.left hwf.left
  have hmatched := matched_of_fires hr hwf.tidy_left hs h
  exact mem_candidates hd.withTable_eq hr hk
    (IndexSettings.compatible_of_matched hfiled hmatched hsees)

/-! ### A rule beside the computation cell -/

/-- A configuration of a computation cell and an environment, and a rule that rewrites the
environment. The rule has the cells in `others` besides. -/
def environmentRule (others : List SourceTerm) : SourceDefinition where
  main := "M"
  modules := [{ name := "M", sentences := [
    .configuration { body := cell "T" [cell "k" [.varOfSort "P" .k], cell "env" [.varOfSort "E" .k]] },
    .rule { body := .apply "T" (others ++
      [.apply "env" [.rewrite (constant "x") (constant "y") {}] {}]) {} }] }]
where
  constant (l : String) : SourceTerm := .apply l [] {}
  cell (l : String) (args : List SourceTerm) : SourceTerm :=
    .apply l args (Attributes.flag {} "cell")

/-- A program and an environment that the rule rewrites. -/
def environmentSubject : SourceTerm :=
  .apply "T" [.apply "k" [.apply "a" [] {}] {}, .apply "env" [.apply "x" [] {}] {}] {}

/-- Whether a test holds of the definition, the rule and the subject. -/
def environmentHolds (others : List SourceTerm) (test : Definition → Rule → Term → Bool) : Bool :=
  (compiled? {} (environmentRule others)).any fun d =>
    (d.lowered? environmentSubject).any fun s => (d.rule? 0).any fun r => test d r s

theorem exists_of_environmentHolds {others : List SourceTerm} {test : Definition → Rule → Term → Bool}
    (h : environmentHolds others test) : ∃ (d : Definition) (r : Rule) (s : Term),
      compiled? {} (environmentRule others) = some d ∧ d.rule? 0 = some r ∧
        d.lowered? environmentSubject = some s ∧ test d r s := by
  obtain ⟨d, hd, h⟩ := (Option.any_eq_true ..).mp h
  obtain ⟨s, hs, h⟩ := (Option.any_eq_true ..).mp h
  obtain ⟨r, hr, h⟩ := (Option.any_eq_true ..).mp h
  exact ⟨d, r, s, hd, hr, hs, h⟩

set_option maxRecDepth 100000

/-- The rule fires with the computation cell named and with a frame in its place. -/
theorem environment_fires :
    (environmentHolds [.apply "k" [.varOfSort "P" .k] {}] fun d r s => r.kind == .regular &&
      r.body.isLifted && s.hasSingleHoles && d.indexing.sees r.body s && d.fires 0 s 1) ∧
    environmentHolds [.varOfSort "Rest" .bag] fun d r s =>
      r.kind == .regular && d.fires 0 s 1 && !(d.candidates s).contains 0 := by
  decide +kernel

/-- With the computation cell named, the rule fires and is a candidate. -/
theorem mem_candidates_environment : ∃ (d : Definition) (subject : Term),
    compiled? {} (environmentRule [.apply "k" [.varOfSort "P" .k] {}]) = some d ∧
      d.lowered? environmentSubject = some subject ∧ d.fires 0 subject 1 ∧
      0 ∈ d.candidates subject := by
  obtain ⟨h, -⟩ := environment_fires
  obtain ⟨d, r, s, hd, hr, hs, h⟩ := exists_of_environmentHolds h
  simp only [Bool.and_eq_true, beq_iff_eq] at h
  obtain ⟨⟨⟨⟨hk, hbody⟩, hholes⟩, hsees⟩, hfires⟩ := h
  exact ⟨d, s, hd, hs, hfires, mem_candidates_of_fires (isCompiled_of_compiled? hd) hr hk hbody
    ⟨tidy_lowered? hs, hholes⟩ hsees hfires⟩

/-- With a frame in its place, the rule fires and is no candidate: it is filed under the cells of
its body, the subject under the content of its computation cell. -/
theorem exists_fires_not_mem_candidates : ∃ (d : Definition) (r : Rule) (subject : Term),
    d.IsCompiled ∧ d.rule? 0 = some r ∧ r.kind = .regular ∧
      d.lowered? environmentSubject = some subject ∧ d.fires 0 subject 1 ∧
      0 ∉ d.candidates subject := by
  obtain ⟨-, h⟩ := environment_fires
  obtain ⟨d, r, s, hd, hr, hs, h⟩ := exists_of_environmentHolds h
  simp only [Bool.and_eq_true, beq_iff_eq, Bool.not_eq_true', List.contains_eq_mem,
    decide_eq_false_iff_not] at h
  exact ⟨d, r, s, isCompiled_of_compiled? hd, hr, h.1.1, hs, h.1.2, h.2⟩

end Definition

end RuleCompiler
