import RuleCompiler.Proofs.Matching.Fits
import RuleCompiler.Proofs.Term.Instance

/-! # Matching first-order patterns

A pattern of variables, tokens and applications matches in one way at most, and it matches just where
the subject is an instance of it. -/

namespace RuleCompiler.Matching

open Term (expr isFirstOrder)

variable {D : Term → Bool} {w : World} {sorts : String → SortName}

/-- The bindings make the pattern the subject. -/
structure Instantiates (σ : Substitution) (p s : Term) : Prop where
  fits : p.expr.Fits (Expr.ofValues σ.get?) s.expr
  bound : ∀ v ∈ p.expr.vars, (σ.get? v).isSome

/-- The replacement is one of the bindings. -/
def Agrees (θ : Var → Expr) (σ : Substitution) : Prop := ∀ v t, σ.get? v = some t → θ v = t.expr

/-- What matching pairs from a state comes to: the bindings that it adds, where there are any. -/
def Decides (w : World) (D : Term → Bool) (st : MatchState) (es : List (Term × Term)) :
    Option MatchState → Prop
  | some st' => st'.substitution.Extends st.substitution ∧
      (∀ e ∈ es, Instantiates st'.substitution e.1 e.2) ∧
      (∀ v t, st'.substitution.get? v = some t →
        st.substitution.get? v = some t ∨ w.Knows D t) ∧
      ∀ θ, Agrees θ st.substitution → (∀ e ∈ es, e.1.expr.Fits θ e.2.expr) →
        Agrees θ st'.substitution
  | none => ∀ θ, Agrees θ st.substitution → ¬∀ e ∈ es, e.1.expr.Fits θ e.2.expr

/-- The matcher decides the pair and makes no nodes. -/
def DecidesAt (w : World) (D : Term → Bool) (go : Matcher) (p s : Term) : Prop :=
  ∀ st, ∃ o : Option MatchState, go p s st = pure o.toList ∧ Decides w D st [(p, s)] o

theorem Instantiates.mono {σ τ : Substitution} {p s : Term} (hτ : τ.Extends σ)
    (h : Instantiates σ p s) : Instantiates τ p s := by
  have hsame : ∀ v ∈ p.expr.vars, Expr.ofValues τ.get? v = Expr.ofValues σ.get? v := by
    intro v hv
    obtain ⟨t, ht⟩ := Option.isSome_iff_exists.mp (h.bound v hv)
    rw [Expr.ofValues, Expr.ofValues, ht, hτ v t ht]
  refine ⟨⟨?_, fun v hv => ?_⟩, fun v hv => ?_⟩
  · rw [Expr.subst_congr hsame]
    exact h.fits.1
  · rw [hsame v hv]
    exact h.fits.2 v hv
  · obtain ⟨t, ht⟩ := Option.isSome_iff_exists.mp (h.bound v hv)
    rw [hτ v t ht]
    rfl

/-- A state decides what needs no bindings. -/
theorem decides_self {es : List (Term × Term)} {st : MatchState}
    (h : ∀ e ∈ es, Instantiates st.substitution e.1 e.2) : Decides w D st es (some st) :=
  ⟨.refl _, h, fun _ _ h => .inl h, fun _ h _ => h⟩

/-! ### Pairs -/

theorem pairs_decides {go : Matcher} :
    ∀ {es : List (Term × Term)}, (∀ e ∈ es, DecidesAt w D go e.1 e.2) →
      ∀ st, ∃ o : Option MatchState, pairs go es [st] = pure o.toList ∧ Decides w D st es o
  | [], _, st => ⟨some st, by rw [pairs]; rfl, decides_self (List.forall_mem_nil _)⟩
  | (p, s) :: es, h, st => by
    obtain ⟨h, hes⟩ := List.forall_mem_cons.mp h
    obtain ⟨o, ho, hd⟩ := h st
    have hstep : pairs go ((p, s) :: es) [st] = pairs go es o.toList := by
      rw [pairs, List.flatMapM_cons, ho]
      · simp
      · simp
    cases o with
    | none =>
      refine ⟨none, ?_, fun θ hθ hall => hd θ hθ ?_⟩
      · rw [hstep, Option.toList_none]
        cases es with
        | nil => rw [pairs]
        | cons e es => rw [pairs]; simp
      · rw [List.forall_mem_singleton]
        exact hall _ List.mem_cons_self
    | some st' =>
      obtain ⟨hext, hinst, hknown, hforced⟩ := hd
      obtain ⟨o, ho', hd'⟩ := pairs_decides hes st'
      refine ⟨o, by rw [hstep]; exact ho', ?_⟩
      have hp := hinst _ List.mem_cons_self
      have hagrees : ∀ θ, Agrees θ st.substitution → p.expr.Fits θ s.expr →
          Agrees θ st'.substitution :=
        fun θ hθ hfit => hforced θ hθ (List.forall_mem_singleton.mpr hfit)
      cases o with
      | some st'' =>
        obtain ⟨hext', hinst', hknown', hforced'⟩ := hd'
        refine ⟨hext'.trans hext, List.forall_mem_cons.mpr ⟨hp.mono hext', hinst'⟩, fun v t hv => ?_,
          fun θ hθ hall => ?_⟩
        · rcases hknown' v t hv with hv | ht
          · exact hknown v t hv
          · exact .inr ht
        · obtain ⟨hfit, hall⟩ := List.forall_mem_cons.mp hall
          exact hforced' θ (hagrees θ hθ hfit) hall
      | none =>
        intro θ hθ hall
        obtain ⟨hfit, hall⟩ := List.forall_mem_cons.mp hall
        exact hd' θ (hagrees θ hθ hfit) hall

/-! ### One level -/

theorem bind_decides {v : Var} {p s : Term} (hp : p.node = .var v) (hv : v.isDontCare = false)
    (hs : w.Knows D s) (st : MatchState) :
    ∃ o : Option MatchState, bind v s st = o.toList ∧ Decides w D st [(p, s)] o := by
  have hexpr := Term.expr_of_var hp
  have hfits {θ : Var → Expr} : p.expr.Fits θ s.expr ↔
      θ v = s.expr ∧ (θ v).sort.subsortOf v.sort := by simp [hexpr, Expr.Fits]
  have hbound {σ : Substitution} {t : Term} (ht : σ.get? v = some t) (hts : t.expr = s.expr)
      (hsort : s.sort.subsortOf v.sort) : Instantiates σ p s := by
    have hvalue : Expr.ofValues σ.get? v = s.expr := by rw [Expr.ofValues, ht]; exact hts
    refine ⟨hfits.mpr ⟨hvalue, ?_⟩, by simp [hexpr, ht]⟩
    rwa [hvalue, Term.sort_expr]
  unfold bind
  rw [hv]
  by_cases hsort : s.sort.subsortOf v.sort
  · rw [hsort]
    refine ⟨(st.substitution.bind? v s).map ({ st with substitution := · }), rfl, ?_⟩
    unfold Substitution.bind?
    cases hget : st.substitution.get? v with
    | some t =>
      dsimp only
      split
      · rename_i heq
        refine decides_self ?_
        rw [List.forall_mem_singleton]
        exact hbound hget (Term.beq_iff_expr.mp heq) hsort
      · rename_i hne
        intro θ hθ hall
        have hfit := hfits.mp (hall _ List.mem_cons_self)
        exact hne (Term.beq_iff_expr.mpr ((hθ v t hget).symm.trans hfit.1))
    | none =>
      have hinsert (u : Var) := st.substitution.get?_insert v u s
      refine ⟨fun u t hu => ?_, ?_, fun u t hu => ?_, fun θ hθ hall u t hu => ?_⟩
      · rw [hinsert, if_neg, hu]
        rintro rfl
        rw [hget] at hu
        cases hu
      · rw [List.forall_mem_singleton]
        refine hbound ?_ rfl hsort
        rw [hinsert, if_pos rfl]
      · rw [hinsert] at hu
        split at hu
        · cases hu
          exact .inr hs
        · exact .inl hu
      · rw [hinsert] at hu
        split at hu
        · rename_i heq
          cases hu
          rw [← heq]
          exact (hfits.mp (hall _ List.mem_cons_self)).1
        · exact hθ u t hu
  · refine ⟨none, by simp [hsort], fun θ hθ hall => hsort ?_⟩
    have hfit := hfits.mp (hall _ List.mem_cons_self)
    rw [← Term.sort_expr, ← hfit.1]
    exact hfit.2

theorem hasRewrite_of_isFirstOrder {p : Term} (h : p.isFirstOrder fun _ => false) :
    p.hasRewrite = false := by
  refine Term.anyNode_of_isFirstOrder h fun u hu => ?_
  rcases hu with ⟨v, hn⟩ | ⟨s, x, hn⟩ | ⟨l, args, s, hn⟩ <;> rw [Term.isRewrite, hn]

theorem hasDisjunction_of_isFirstOrder {p : Term} (h : p.isFirstOrder fun _ => false) :
    p.hasDisjunction = false := by
  refine Term.anyNode_of_isFirstOrder h fun u hu => ?_
  rcases hu with ⟨v, hn⟩ | ⟨s, x, hn⟩ | ⟨l, args, s, hn⟩ <;> rw [Term.isDisjunction, hn]

/-- A first-order pattern without don't-care variables, with labels of their sorts. -/
structure IsPattern (sorts : String → SortName) (p : Term) : Prop where
  isFirstOrder : p.isFirstOrder fun _ => false
  named : ∀ v ∈ p.expr.vars, v.isDontCare = false
  sorted : p.expr.All fun l _ s => s = sorts l

namespace IsPattern
variable {p : Term}

theorem arg (hp : IsPattern sorts p) {l : String} {args : List Term} {s : SortName}
    (hn : p.node = .app (.const l) args s) {a : Term} (ha : a ∈ args) : IsPattern sorts a := by
  have hexpr := Term.expr_of_app hn
  have hmem : a.expr ∈ args.map expr := List.mem_map_of_mem ha
  refine ⟨(Term.isFirstOrder_app hn).mp hp.isFirstOrder a ha, fun v hv => hp.named v ?_, ?_⟩
  · rw [hexpr, Expr.vars_app]
    exact List.mem_flatMap.mpr ⟨_, hmem, hv⟩
  · exact (hexpr ▸ hp.sorted).arg _ hmem

/-- A pattern with variables is one itself or is an application. -/
theorem cases_node (hp : IsPattern sorts p) (h : ¬p.isGround) :
    (∃ v, p.node = .var v) ∨ ∃ l args s, p.node = .app (.const l) args s := by
  rcases p.cases_node with hv | ha | hvars
  · exact .inl hv
  · exact .inr ha
  · exact absurd ((Term.isGround_iff_expr hp.isFirstOrder).mpr hvars) h

end IsPattern

/-- A ground pattern is compared. -/
theorem ground_decides {p s : Term} (hp : IsPattern sorts p) (hground : p.isGround) (st : MatchState) :
    Decides w D st [(p, s)] (if p == s then some st else none) := by
  have hvars := (Term.isGround_iff_expr hp.isFirstOrder).mp hground
  split
  · rename_i heq
    refine decides_self ?_
    rw [List.forall_mem_singleton]
    refine ⟨⟨?_, ?_⟩, ?_⟩
    · rw [Expr.subst_of_ground hvars]
      exact Term.beq_iff_expr.mp heq
    · rw [hvars]
      exact List.forall_mem_nil _
    · rw [hvars]
      exact List.forall_mem_nil _
  · rename_i hne
    intro θ hθ hall
    have hfit := (hall _ List.mem_cons_self).1
    rw [Expr.subst_of_ground hvars] at hfit
    exact hne (Term.beq_iff_expr.mpr hfit)

theorem fits_app (θ : Var → Expr) (l : String) (k : SortName) :
    ∀ {ps ss : List Term}, ps.length = ss.length →
      ((Expr.app l (ps.map expr) k).Fits θ (.app l (ss.map expr) k) ↔
        ∀ e ∈ ps.zip ss, e.1.expr.Fits θ e.2.expr)
  | [], [], _ => by simp [Expr.Fits]
  | p :: ps, s :: ss, h => by
    have ih := fits_app θ l k (Nat.succ.inj h)
    rw [List.zip_cons_cons, List.forall_mem_cons, ← ih]
    simp only [Expr.Fits, List.map_cons, Expr.subst_app, Expr.vars_app, Expr.app.injEq,
      List.cons.injEq, List.flatMap_cons, List.forall_mem_append, true_and, and_true]
    tauto

/-- Applications of one label are matched argument by argument. -/
theorem app_decides {l : String} {ps ss : List Term} {k : SortName} {p s : Term}
    (hp : p.node = .app (.const l) ps k) (hs : s.node = .app (.const l) ss k)
    (hlen : ps.length = ss.length) {st : MatchState} {o : Option MatchState}
    (h : Decides w D st (ps.zip ss) o) : Decides w D st [(p, s)] o := by
  have hfits {θ : Var → Expr} :
      (∀ e ∈ [(p, s)], e.1.expr.Fits θ e.2.expr) ↔ ∀ e ∈ ps.zip ss, e.1.expr.Fits θ e.2.expr := by
    rw [List.forall_mem_singleton, Term.expr_of_app hp, Term.expr_of_app hs, fits_app θ l k hlen]
  cases o with
  | none => exact fun θ hθ hall => h θ hθ (hfits.mp hall)
  | some st' =>
    obtain ⟨hext, hinst, hknown, hforced⟩ := h
    refine ⟨hext, ?_, hknown, fun θ hθ hall => hforced θ hθ (hfits.mp hall)⟩
    have hfit := hfits.mpr fun e he => (hinst e he).fits
    rw [List.forall_mem_singleton] at hfit ⊢
    refine ⟨hfit, fun v hv => ?_⟩
    rw [Term.expr_of_app hp, Expr.vars_app, List.flatMap_map] at hv
    obtain ⟨q, hq, hv⟩ := List.mem_flatMap.mp hv
    obtain ⟨i, hi, rfl⟩ := List.getElem_of_mem hq
    have hmem : (ps[i], ss[i]) ∈ ps.zip ss :=
      List.mem_iff_getElem.mpr ⟨i, by simp [hi, ← hlen], by simp⟩
    exact (hinst _ hmem).bound v hv

section Node
variable {go deeper : Matcher} {p s : Term} {st : MatchState}

theorem node_ground (hp : p.isFirstOrder fun _ => false) (hground : p.isGround) :
    node go deeper p s st = pure (if p == s then [st] else []) := by
  refine node_compares ?_ s st
  rw [isCompared, hasRewrite_of_isFirstOrder hp, hasDisjunction_of_isFirstOrder hp, hground]
  rfl

theorem node_app (hground : ¬p.isGround) {l : String} {ps : List Term} {k : SortName}
    (hn : p.node = .app (.const l) ps k) :
    node go deeper p s st = match s.node with
      | .app (.const l') ss _ =>
        if l = l' && ps.length = ss.length then pairs go (ps.zip ss) [st] else pure []
      | _ => pure [] := by
  unfold node
  rw [if_neg (by simp [hground]), hn]
  cases s.node with
  | app l' ss k' => cases l' <;> rfl
  | _ => rfl

end Node

theorem size_arg {t : Term} {l : String} {args : List Term} {k : SortName}
    (hn : t.node = .app (.const l) args k) {a : Term} (ha : a ∈ args) : a.size < t.size :=
  Term.size_child (by rwa [Term.children, hn])

/-- What does not fit an application is matched by nothing. -/
theorem decides_none {st : MatchState} {p s : Term} (h : ∀ θ, ¬p.expr.Fits θ s.expr) :
    Decides w D st [(p, s)] none :=
  fun θ _ hall => h θ (hall _ List.mem_cons_self)

theorem upTo_decides (deeper : Matcher) {n : Nat} {p s : Term} (hn : p.size ≤ n)
    (hp : IsPattern sorts p) (hs : w.Knows D s) (hsorted : s.expr.All fun l _ s => s = sorts l) :
    DecidesAt w D (upTo deeper n) p s := by
  induction n generalizing p s with
  | zero =>
    have := p.size_pos
    omega
  | succ n ih =>
    intro st
    rw [upTo]
    by_cases hground : p.isGround
    · refine ⟨if p == s then some st else none, ?_, ground_decides hp hground st⟩
      rw [node_ground hp.isFirstOrder hground]
      split
      · rfl
      · rfl
    rcases hp.cases_node hground with ⟨v, hpn⟩ | ⟨l, ps, k, hpn⟩
    · obtain ⟨o, ho, hd⟩ := bind_decides hpn (hp.named v (by simp [Term.expr_of_var hpn])) hs st
      exact ⟨o, by rw [node_var hground hpn, ho], hd⟩
    have hpexpr := Term.expr_of_app hpn
    rw [node_app hground hpn]
    split
    · rename_i l' ss k' hsn
      have hsexpr := Term.expr_of_app hsn
      split
      · rename_i heq
        rw [Bool.and_eq_true, decide_eq_true_eq, decide_eq_true_eq] at heq
        obtain ⟨rfl, hlen⟩ := heq
        have hk : k = k' := (hpexpr ▸ hp.sorted).top.trans (hsexpr ▸ hsorted).top.symm
        subst hk
        have hargs : ∀ e ∈ ps.zip ss, DecidesAt w D (upTo deeper n) e.1 e.2 := by
          intro e he
          obtain ⟨hep, hes⟩ := List.of_mem_zip he
          refine ih ?_ (hp.arg hpn hep) (hs.arg hsn hes) ?_
          · have := size_arg hpn hep
            omega
          · exact (hsexpr ▸ hsorted).arg _ (List.mem_map_of_mem hes)
        obtain ⟨o, ho, hd⟩ := pairs_decides hargs st
        exact ⟨o, ho, app_decides hpn hsn hlen hd⟩
      · rename_i hne
        refine ⟨none, rfl, decides_none fun θ hfit => hne ?_⟩
        have hfit := hfit.1
        rw [hpexpr, hsexpr, Expr.subst_app, Expr.app.injEq] at hfit
        have hlen := congrArg List.length hfit.2.1
        simp only [List.length_map] at hlen
        simp [hfit.1, hlen]
    · rename_i hother
      refine ⟨none, rfl, decides_none fun θ hfit => ?_⟩
      have hfit := hfit.1
      rw [hpexpr, Expr.subst_app] at hfit
      obtain ⟨args, hsn, -⟩ := Term.node_of_expr_app hfit.symm
      exact hother l args k hsn

end RuleCompiler.Matching

namespace RuleCompiler

open Matching

/-- A first-order pattern matches in one way at most, and it does where the subject is an instance
of it. -/
theorem matchAll_firstOrder {D : Term → Bool} {w : World} {sorts : String → SortName}
    {p s : Term} (hp : IsPattern sorts p) (hs : w.Knows D s)
    (hsorted : s.expr.All fun l _ s => s = sorts l) :
    (matchAll p s = pure [] ∧ ∀ θ, ¬p.expr.Fits θ s.expr) ∨
    ∃ σ, matchAll p s = pure [σ] ∧ Instantiates σ p s ∧
      ∀ v t, σ.get? v = some t → w.Knows D t := by
  obtain ⟨n, hn⟩ : ∃ n, s.size = n + 1 := ⟨s.size - 1, by have := s.size_pos; omega⟩
  obtain ⟨o, ho, hd⟩ := upTo_decides (below n) (Nat.le_refl _) hp hs hsorted {}
  have hmatch : matchAll p s = (do return (← pure o.toList).map (·.substitution)) := by
    rw [matchAll, matchFrom, hn, below]
    dsimp only
    rw [ho]
  have hempty (v : Var) : ({} : Substitution).get? v = none := rfl
  cases o with
  | none =>
    refine .inl ⟨hmatch, fun θ hfit => hd θ (fun v t hv => ?_) (List.forall_mem_singleton.mpr hfit)⟩
    rw [hempty] at hv
    cases hv
  | some st =>
    obtain ⟨-, hinst, hknown, -⟩ := hd
    refine .inr ⟨st.substitution, hmatch, hinst _ List.mem_cons_self, fun v t hv => ?_⟩
    rcases hknown v t hv with hv | ht
    · rw [hempty] at hv
      cases hv
    · exact ht

end RuleCompiler
