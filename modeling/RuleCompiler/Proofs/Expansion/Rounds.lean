import RuleCompiler.Proofs.Expansion.Redexes

/-! # Rounds of expansion

A round expands every redex that is not below another one, and it expands none exactly if the term is in normal
form. So the rounds end: with a normal form, or when more has been expanded than the limit allows. -/

namespace RuleCompiler

open Build (Always From Gives)
open Counting (Runs)
open MonadAttach (CanReturn)

namespace Expander
variable {e : Expander} {t u : Term} {N n : Nat} {P : Term → Prop}

/-! ### One round -/

open Classical in
/-- The number of redexes that are not below others. -/
noncomputable def outermost (e : Expander) : Term → Nat :=
  Term.fold fun t below => if e.IsRedex t then 1 else below.sum

open Classical in
theorem outermost_eq (t : Term) :
    e.outermost t = if e.IsRedex t then 1 else (t.children.map e.outermost).sum := by
  rw [outermost, Term.fold_eq, ← outermost]

theorem outermost_of_isRedex (h : e.IsRedex t) : e.outermost t = 1 := by rw [outermost_eq, if_pos h]

theorem outermost_of_not_isRedex (h : ¬e.IsRedex t) : e.outermost t = (t.children.map e.outermost).sum := by
  rw [outermost_eq, if_neg h]

theorem outermost_of_isVar (he : e.IsPlain) (h : t.isVar) : e.outermost t = 0 := by
  obtain ⟨v, hv⟩ := Term.exists_var h
  rw [outermost_of_not_isRedex (not_isRedex_of_isVar he h), Term.children, hv]
  rfl

/-- Nothing is left to expand exactly in a normal form. -/
theorem outermost_eq_zero (he : e.IsPlain) : e.outermost t = 0 ↔ e.IsNormal t := by
  induction t using Term.induction with
  | h t ih =>
    have hchildren : (t.children.map e.outermost).sum = 0 ↔ ∀ c ∈ t.children, e.IsNormal c := by
      rw [List.sum_eq_zero_iff_forall_eq_nat, List.forall_mem_map]
      exact forall₂_congr ih
    rw [isNormal_iff he]
    by_cases hredex : e.IsRedex t
    · rw [outermost_of_isRedex hredex]
      exact iff_of_false Nat.one_ne_zero fun h => h.1 hredex
    · rw [outermost_of_not_isRedex hredex, hchildren]
      exact ⟨fun h => ⟨hredex, h⟩, And.right⟩

section Run
variable (he : e.IsPlain) (hP : Term.Spreads N P) (hright : ∀ r ∈ e.rules, P r.right)
include he hP hright

/-- A round counts what it expands. -/
theorem runs_round (hn : N ≤ n) (ht : P t) : Runs n (e.round t) (e.outermost t) P := by
  have hvisit : ∀ u k, N ≤ k → P u → Gives k (fun _ o => (o.isSome ↔ e.IsRedex u) ∧ ∀ w ∈ o, P w) (e.expandNode? u) :=
    fun u k hk hu => gives_expandNode? he hP hright hk hu
  have hstuck : ∀ u k, N ≤ k → P u → ¬e.IsRedex u → Runs k (m := StateT Nat Build) (do
      let expansion ← (e.expandNode? u : Build _)
      if expansion.isSome then modify (· + 1)
      return expansion) 0 fun o => o = none := by
    intro u k hk hu hredex
    refine Counting.bind (c := 0) (d := 0) (Counting.lift (hvisit u k hk hu)) fun k₁ o _ ho => ?_
    rw [Option.not_isSome_iff_eq_none.mp fun h => hredex (ho.1.mp h)]
    exact Counting.pure rfl
  refine hP.replaceDown (fun u hu => outermost_of_isVar he hu) (fun u k hk hu => ?_) ?_ hn ht
  · by_cases hredex : e.IsRedex u
    · left
      rw [outermost_of_isRedex hredex]
      refine Counting.bind (c := 0) (d := 1) (Counting.lift (hvisit u k hk hu)) fun k₁ o _ ho => ?_
      obtain ⟨w, rfl⟩ := Option.isSome_iff_exists.mp (ho.1.mpr hredex)
      have hcount : Runs k₁ (modify (· + 1) : StateT Nat Build PUnit) 1 fun _ => True :=
        fun s => ⟨((), s + 1), k₁, rfl, Nat.le_refl k₁, rfl, trivial⟩
      exact Counting.bind (c := 1) (d := 0) hcount fun _ _ _ _ => Counting.pure ⟨w, rfl, ho.2 w rfl⟩
    · exact .inr ⟨outermost_of_not_isRedex hredex, hstuck u k hk hu hredex⟩
  · intro u _ parts vs _ v _ x k hk hx hPx
    have hredex := not_isRedex_of_isVar he (t := x) (by rw [Term.isVar, hx]; rfl)
    refine Counting.mono (hstuck x k hk hPx hredex) ?_
    rintro _ rfl w hw
    cases hw

end Run

/-! ### All rounds -/

/-- The term becomes the other in rounds that expand so many redexes. -/
inductive Reaches (e : Expander) : Term → Nat → Term → Prop where
  | refl (t : Term) : Reaches e t 0 t
  | round {t t' u : Term} {c steps : Nat} (h : CanReturn ((e.round t).run 0) (t', c)) (hrest : Reaches e t' steps u) :
      Reaches e t (c + steps) u

/-- What rounds may give for a term after so many expansions: a normal form, reached within the limit, or a number
of expansions beyond it. -/
def IsWithin (e : Expander) (steps : Nat) (t : Term) : Except Nat Term → Prop
  | .ok u => e.IsNormal u ∧ ∃ more, steps + more ≤ e.limit ∧ e.Reaches t more u
  | .error total => e.limit < total ∧ ∃ u more, total = steps + more ∧ e.Reaches t more u

theorem IsWithin.round {t' : Term} {steps c : Nat} {r : Except Nat Term} (h : CanReturn ((e.round t).run 0) (t', c))
    (hr : e.IsWithin (steps + c) t' r) : e.IsWithin steps t r := by
  cases r with
  | ok u =>
    obtain ⟨hnormal, more, hmore, hreach⟩ := hr
    exact ⟨hnormal, _, by omega, .round h hreach⟩
  | error total =>
    obtain ⟨hlimit, u, more, htotal, hreach⟩ := hr
    exact ⟨hlimit, u, _, by omega, .round h hreach⟩

section Run
variable (he : e.IsPlain) (hP : Term.Spreads N P) (hright : ∀ r ∈ e.rules, P r.right)
include he hP hright

theorem gives_round (hn : N ≤ n) (ht : P t) : Gives n (fun _ r => (r.2 = e.outermost t ∧ P r.1) ∧
    CanReturn ((e.round t).run 0) r) ((e.round t).run 0) := by
  have hrun := runs_round he hP hright hn ht 0
  rw [Nat.zero_add] at hrun
  exact hrun.canReturn

/-- A round, and what comes after it unless it was the last one. -/
theorem gives_next {steps : Nat} (next : Nat → Term → Build (Except Nat Term)) (hn : N ≤ n) (ht : P t)
    (hsteps : steps ≤ e.limit) (hnext : ∀ k t' c, N ≤ k → P t' → 0 < c → steps + c ≤ e.limit →
      Gives k (fun _ r => e.IsWithin (steps + c) t' r ∧ ∀ u, r = .ok u → P u) (next c t')) :
    Gives n (fun _ r => e.IsWithin steps t r ∧ ∀ u, r = .ok u → P u) (do
      let (t', applied) ← (e.round t).run 0
      if applied = 0 then return .ok t
      if e.limit < steps + applied then return .error (steps + applied)
      next applied t') := by
  refine (gives_round he hP hright hn ht).bind fun k r hk hr => ?_
  obtain ⟨t', c⟩ := r
  obtain ⟨⟨hc, ht'⟩, hround⟩ := hr
  dsimp only at hc ⊢
  subst hc
  split
  · rename_i hzero
    refine .pure ⟨⟨(outermost_eq_zero he).mp hzero, 0, hsteps, .refl t⟩, ?_⟩
    rintro _ ⟨⟩
    exact ht
  split
  · rename_i hlimit
    exact .pure ⟨⟨hlimit, t', _, rfl, .round hround (.refl t')⟩, nofun⟩
  · rename_i hzero hlimit
    refine (hnext k t' _ (Nat.le_trans hn hk) ht' (Nat.pos_of_ne_zero hzero) (Nat.not_lt.mp hlimit)).mono ?_
    exact fun _ r _ hr => ⟨hr.1.round hround, hr.2⟩

/-- Each round but the last one expands something, so as many rounds as the limit allows are enough. -/
theorem gives_rounds : ∀ (fuel : Nat) {n steps : Nat} {t : Term}, N ≤ n → P t → steps ≤ e.limit →
    e.limit ≤ fuel + steps →
      Gives n (fun _ r => e.IsWithin steps t r ∧ ∀ u, r = .ok u → P u) (e.rounds fuel steps t) := by
  intro fuel
  induction fuel with
  | zero =>
    intro n steps t hn ht hsteps hfuel
    exact gives_next he hP hright (fun _ _ => return .ok t) hn ht hsteps fun k t' c _ _ hc hlimit => by omega
  | succ fuel ih =>
    intro n steps t hn ht hsteps hfuel
    refine gives_next he hP hright (fun c t' => e.rounds fuel (steps + c) t') hn ht hsteps ?_
    exact fun k t' c hk ht' hc hlimit => ih hk ht' hlimit (by omega)

theorem gives_expand (hn : N ≤ n) (ht : P t) :
    Gives n (fun _ r => e.IsWithin 0 t r ∧ ∀ u, r = .ok u → P u) (e.expand t) :=
  gives_rounds he hP hright e.limit hn ht (Nat.zero_le _) (Nat.le_refl _)

end Run

/-- A term in normal form is left as it is. -/
theorem expand_of_isNormal (he : e.IsPlain) (h : e.IsNormal t) : Always (e.expand t) (· = .ok t) := by
  refine .of_gives fun n => ?_
  unfold expand rounds
  refine (gives_round he Term.spreads_true (fun _ _ => trivial) (Nat.zero_le n) trivial).bind fun k r _ hr => ?_
  obtain ⟨t', c⟩ := r
  have hzero : c = 0 := hr.1.1.trans ((outermost_eq_zero he).mpr h)
  dsimp only
  rw [if_pos hzero]
  exact .pure rfl

end Expander

end RuleCompiler
