import RuleCompiler.Proofs.Firing
import RuleCompiler.Proofs.Substitution

/-! # Fresh constants

A rule that brings out variables marked `!` makes up constants for them, numbered in order. The
constants of one firing are different from each other. But every firing numbers from 1 again, whatever
constants the subject has by then, so a run may make up one constant twice. -/

namespace RuleCompiler

open MonadAttach (CanReturn)

/-! ### Numbered constants -/

theorem toString_nat_injective {m n : Nat} (h : toString m = toString n) : m = n := by
  have hdigits := congrArg (fun s : String => Nat.ofDigitChars 10 s.toList 0) h
  simpa [Nat.toString_eq_ofList_toDigits] using hdigits

@[simp] theorem sort_freshConstant (s : SortName) (n : Nat) : (freshConstant s n).sort = s := by
  unfold freshConstant
  split
  · rename_i hs
    rw [hs]
    rfl
  · rfl

/-- Constants of different sorts or of different numbers are different terms. -/
theorem freshConstant_inj {s s' : SortName} {m n : Nat}
    (h : freshConstant s m == freshConstant s' n) : s = s' ∧ m = n := by
  have hsort : s = s' := by
    have hsorts := Term.sort_congr h
    rwa [sort_freshConstant, sort_freshConstant] at hsorts
  subst hsort
  refine ⟨rfl, ?_⟩
  have halike := Term.alike_of_beq h
  unfold freshConstant at halike
  split at halike
  · generalize ht : (Term.int m).node = t, hu : (Term.int n).node = u at halike
    cases halike with
    | token =>
      cases ht
      simp only [Term.int, Term.token, Node.token.injEq, true_and] at hu
      exact toString_nat_injective hu.symm
    | _ => cases ht
  · generalize ht : (Term.token s (s.name ++ "!" ++ toString m)).node = t,
      hu : (Term.token s (s.name ++ "!" ++ toString n)).node = u at halike
    cases halike with
    | token =>
      cases ht
      simp only [Term.token, Node.token.injEq, true_and] at hu
      exact toString_nat_injective ((String.append_right_inj _).mp hu.symm)
    | _ => cases ht

/-! ### The constants of one firing -/

/-- The constants that a rule makes up when it fires. -/
def Rule.madeUp (r : Rule) : List Term :=
  r.freshConstants.mapIdx fun i v => freshConstant v.sort (i + 1)

theorem Rule.madeUp_differ (r : Rule) : r.madeUp.Pairwise fun t u => ¬ t == u := by
  rw [List.pairwise_iff_getElem]
  intro i j hi hj hij h
  simp only [madeUp, List.getElem_mapIdx] at h
  have := (freshConstant_inj h).2
  omega

theorem nodup_eraseDups : ∀ vs : List Var, vs.eraseDups.Nodup
  | [] => .nil
  | v :: vs => by
    rw [List.eraseDups_cons, List.nodup_cons, List.mem_eraseDups]
    exact ⟨by simp, nodup_eraseDups _⟩
termination_by vs => vs.length
decreasing_by exact Nat.lt_succ_of_le (List.length_filter_le ..)

theorem Rule.nodup_freshConstants (r : Rule) : r.freshConstants.Nodup :=
  (nodup_eraseDups _).filter _

namespace Substitution
variable {σ : Substitution} {v : Var} {t : Term}

/-- Bindings that are added where there are none leave those that are there. -/
theorem get?_foldl_bind {es : List (Var × Term)} (h : σ.get? v = some t) :
    (es.foldl (fun σ (w, u) => (σ.bind? w u).getD σ) σ).get? v = some t := by
  induction es generalizing σ with
  | nil => exact h
  | cons e es ih =>
    rw [List.foldl_cons]
    refine ih ?_
    cases hb : σ.bind? e.1 e.2 with
    | none => simpa only [hb, Option.getD_none] using h
    | some τ => simpa only [hb, Option.getD_some] using bind?_extends hb v t h

/-- Of bindings for different variables each takes effect where there was none before. -/
theorem get?_foldl_bind_of_mem {es : List (Var × Term)} (hnodup : (es.map Prod.fst).Nodup)
    (he : (v, t) ∈ es) (hv : σ.get? v = none) :
    (es.foldl (fun σ (w, u) => (σ.bind? w u).getD σ) σ).get? v = some t := by
  induction es generalizing σ with
  | nil => cases he
  | cons e es ih =>
    rw [List.map_cons, List.nodup_cons] at hnodup
    rw [List.foldl_cons]
    rcases List.mem_cons.mp he with rfl | he
    · refine get?_foldl_bind ?_
      simp [bind?, hv, get?_insert]
    · have hne : e.1 ≠ v := by
        rintro rfl
        exact hnodup.1 (List.mem_map.mpr ⟨_, he, rfl⟩)
      refine ih hnodup.2 he ?_
      cases hb : σ.bind? e.1 e.2 with
      | none => simpa only [hb, Option.getD_none] using hv
      | some τ =>
        simp only [hb, Option.getD_some]
        by_contra hsome
        obtain ⟨u, hu⟩ := Option.ne_none_iff_exists'.mp hsome
        rcases of_bind? hb hu with ⟨h, -⟩ | h
        · exact hne h.symm
        · rw [hv] at h
          cases h

end Substitution

/-- Every variable that is not bound gets the constant of its number. -/
theorem get?_bindFresh {vars : List Var} (hnodup : vars.Nodup) {σ : Substitution} {i : Nat} {v : Var}
    (hi : vars[i]? = some v) (hv : σ.get? v = none) :
    (bindFresh vars σ).get? v = some (freshConstant v.sort (i + 1)) := by
  refine Substitution.get?_foldl_bind_of_mem ?_ (List.mem_of_getElem? (i := i) ?_) hv
  · have hkeys : (vars.mapIdx fun i v => (v, freshConstant v.sort (i + 1))).map Prod.fst = vars := by
      refine List.ext_getElem? fun j => ?_
      simp [Function.comp_def]
    rwa [hkeys]
  · rw [List.getElem?_mapIdx, hi]
    rfl

/-- The number of a bound variable is left out. -/
example : (bindFresh [{ name := "!I", sort := .int }, { name := "!J", sort := .int }]
    ⟨[({ name := "!I", sort := .int }, .int 7)]⟩).bindings.map (·.2) == [.int 7, .int 2] := by
  decide +kernel

/-- Two rules of which each makes up an identifier, the second next to the one that it is given. -/
def twoIdentifiers : SourceDefinition where
  main := "M"
  modules := [{ name := "M", sentences := [
    .rule { body := .rewrite (symbol "a" []) (symbol "b" [id "!I"]) {} },
    .rule { body := .rewrite (symbol "b" [id "X"]) (symbol "c" [id "X", id "!J"]) {} }] }]
where
  symbol (l : String) (args : List SourceTerm) : SourceTerm := .apply l args {}
  id (x : String) : SourceTerm := .varOfSort x ⟨"Id"⟩

set_option maxRecDepth 100000

end RuleCompiler
