import RuleCompiler.Proofs.Matching.Lands

/-! # What a match finds

A match goes on in every state; no state ends it, whether the pattern lands on the subject or not. Where
it does, from a state on the way to the bindings under which it does a state is reached that is still on
the way to them. So forks may be followed one by one, as the collections are. -/

namespace RuleCompiler.Matching

open Build (Always)

variable {σ : Substitution} {X Y : Prop} {vs ws : List Var} {st : MatchState} {sts : List MatchState}

/-- The state binds data only. -/
abbrev Stored (st : MatchState) : Prop := HoldsData st.substitution

/-- The later state is on the way to `σ`, keeps the bindings of the earlier one, and binds `vs`. -/
structure Reached (σ : Substitution) (vs : List Var) (st st' : MatchState) : Prop where
  follows : Follows σ st'.substitution
  keeps : st'.substitution.Extends st.substitution
  binds : ∀ v ∈ vs, (st'.substitution.get? v).isSome

/-- All states bind data, and where `X` holds one of them is reached from a state on the way to `σ`. -/
structure Found (σ : Substitution) (X : Prop) (vs : List Var) (st : MatchState)
    (sts : List MatchState) : Prop where
  stored : ∀ st' ∈ sts, Stored st'
  reached : Follows σ st.substitution → X → ∃ st' ∈ sts, Reached σ vs st st'

/-- The matcher finds what lands on the subject. -/
def FindsAt (σ : Substitution) (go : Matcher) (p s : Term) : Prop :=
  ∀ st, Stored st → Always (go p s st) (Found σ (Lands σ p s) p.vars st)

/-! ### States -/

theorem Found.imp (h : Found σ Y ws st sts) (hXY : Follows σ st.substitution → X → Y)
    (hvs : X → ∀ v ∈ vs, (st.substitution.get? v).isSome ∨ v ∈ ws) : Found σ X vs st sts := by
  refine ⟨h.stored, fun hf hX => ?_⟩
  obtain ⟨st', hst', hr⟩ := h.reached hf (hXY hf hX)
  refine ⟨st', hst', hr.follows, hr.keeps, fun v hv => ?_⟩
  exact (hvs hX v hv).elim (Substitution.Extends.isSome hr.keeps) (hr.binds v)

theorem found_none (h : Follows σ st.substitution → ¬X) : Found σ X vs st [] :=
  ⟨List.forall_mem_nil _, fun hf hX => absurd hX (h hf)⟩

theorem found_self (hst : Stored st) : Found σ X [] st [st] :=
  ⟨List.forall_mem_singleton.mpr hst,
    fun hf _ => ⟨st, List.mem_singleton_self st, hf, .refl _, List.forall_mem_nil _⟩⟩

theorem found_if {c : Prop} [Decidable c] (hst : Stored st) (hX : X → c) :
    Found σ X [] st (if c then [st] else []) := by
  split
  · exact found_self hst
  · rename_i hc
    exact found_none fun _ h => hc (hX h)

/-- A fork finds what one of its branches finds. -/
theorem always_choice {α : Type} {l : List α} {f : α → Build (List MatchState)} {Z : α → Prop}
    (h : ∀ a ∈ l, Always (f a) (Found σ (Z a) vs st))
    (hX : Follows σ st.substitution → X → ∃ a ∈ l, Z a) :
    Always (l.flatMapM f) (Found σ X vs st) := by
  refine (Always.flatMapM h).mono fun sts => ?_
  rintro ⟨parts, hparts, rfl⟩
  refine ⟨fun st' hst' => ?_, fun hf hx => ?_⟩
  · obtain ⟨part, hpart, hst'⟩ := List.mem_flatten.mp hst'
    obtain ⟨a, -, ha⟩ := PairedLists.exists_mem hparts.flip hpart
    exact ha.stored st' hst'
  · obtain ⟨a, ha, hZ⟩ := hX hf hx
    obtain ⟨part, hpart, hfound⟩ := PairedLists.exists_mem hparts ha
    obtain ⟨st', hst', hr⟩ := hfound.reached hf hZ
    exact ⟨st', List.mem_flatten.mpr ⟨part, hpart, hst'⟩, hr⟩

/-- Going on from every state. -/
theorem Found.next {f : MatchState → Build (List MatchState)} (h : Found σ X vs st sts)
    (hf : ∀ st' ∈ sts, Stored st' → Always (f st') (Found σ Y ws st')) :
    Always (sts.flatMapM f) (Found σ (X ∧ Y) (vs ++ ws) st) := by
  refine (Always.flatMapM fun st' hst' => hf st' hst' (h.stored st' hst')).mono fun sts' => ?_
  rintro ⟨parts, hparts, rfl⟩
  refine ⟨fun st' hst' => ?_, fun hfollows hXY => ?_⟩
  · obtain ⟨part, hpart, hst'⟩ := List.mem_flatten.mp hst'
    obtain ⟨a, -, ha⟩ := PairedLists.exists_mem hparts.flip hpart
    exact ha.stored st' hst'
  · obtain ⟨st₁, hst₁, hr₁⟩ := h.reached hfollows hXY.1
    obtain ⟨part, hpart, hfound⟩ := PairedLists.exists_mem hparts hst₁
    obtain ⟨st₂, hst₂, hr₂⟩ := hfound.reached hr₁.follows hXY.2
    refine ⟨st₂, List.mem_flatten.mpr ⟨part, hpart, hst₂⟩, hr₂.follows, hr₂.keeps.trans hr₁.keeps, ?_⟩
    exact List.forall_mem_append.mpr ⟨fun v hv => Substitution.Extends.isSome hr₂.keeps (hr₁.binds v hv), hr₂.binds⟩

/-! ### Variables -/

theorem bind_found {v : Var} {s : Term} (hv : v.isDontCare = false) (hs : s.IsData)
    (hst : Stored st) : Found σ (Names σ v s) [v] st (bind v s st) := by
  unfold bind
  rw [hv]
  by_cases hsort : s.sort.subsortOf v.sort
  swap
  · simp only [hsort, Bool.not_false, if_true]
    exact found_none fun _ ⟨_, _, _, h⟩ => hsort h
  simp only [hsort, Bool.not_true, Bool.false_eq_true, if_false]
  unfold Substitution.bind?
  cases hget : st.substitution.get? v with
  | some t =>
    dsimp only
    split
    · refine (found_self hst).imp (fun _ h => h) fun _ w hw => .inl ?_
      rw [List.mem_singleton.mp hw, hget]
      rfl
    · rename_i hne
      refine found_none fun hf ⟨u, hu, hus, _⟩ => hne ?_
      obtain ⟨u', hu', htu⟩ := hf v t hget
      rw [hu] at hu'
      cases hu'
      exact BEq.trans htu hus
  | none =>
    have hinsert (w : Var) := st.substitution.get?_insert v w s
    refine ⟨List.forall_mem_singleton.mpr fun w t hw => ?_, fun hf ⟨u, hu, hus, _⟩ =>
      ⟨_, List.mem_singleton_self _, fun w t hw => ?_, fun w t hw => ?_, ?_⟩⟩
    · rw [hinsert] at hw
      split at hw
      · cases hw
        exact hs
      · exact hst w t hw
    · rw [hinsert] at hw
      split at hw
      · rename_i heq
        cases hw
        exact ⟨u, heq ▸ hu, BEq.symm hus⟩
      · exact hf w t hw
    · rw [hinsert, if_neg, hw]
      rintro rfl
      rw [hget] at hw
      cases hw
    · rw [List.forall_mem_singleton, hinsert, if_pos rfl]
      rfl

/-- A variable stands for data, so for whatever data the same can be said of. -/
theorem Names.of_data (hσ : HoldsData σ) {v : Var} {t r : Term} (h : Names σ v t)
    (hr : ∀ u : Term, u.IsData → u == t → u == r) : Names σ v r := by
  obtain ⟨u, hu, hut, hsort⟩ := h
  have hur := hr u (hσ v u hu) hut
  exact ⟨u, hu, hur, by rwa [← Term.sort_congr hur, Term.sort_congr hut]⟩

/-! ### Pairs -/

section Pairs
variable {go deeper : Matcher}

theorem pairs_found : ∀ {es : List (Term × Term)} {sts : List MatchState} {X : Prop} {vs : List Var},
    (∀ e ∈ es, FindsAt σ go e.1 e.2) → Found σ X vs st sts →
      Always (pairs go es sts)
        (Found σ (X ∧ ∀ e ∈ es, Lands σ e.1 e.2) (vs ++ es.flatMap fun e => e.1.vars) st)
  | [], sts, X, vs, _, h => by
    rw [pairs]
    exact .pure (h.imp (fun _ h => h.1) fun _ v hv => .inr (by simpa using hv))
  | (p, s) :: es, [], X, vs, _, h => by
    rw [pairs]
    · refine .pure (found_none fun hf hX => ?_)
      obtain ⟨st', hst', -⟩ := h.reached hf hX.1
      cases hst'
    · simp
  | (p, s) :: es, st' :: sts, X, vs, hes, h => by
    obtain ⟨hp, hes⟩ := List.forall_mem_cons.mp hes
    rw [pairs]
    · refine (h.next fun st'' _ hst'' => hp st'' hst'').bind fun sts' hsts' => ?_
      refine (pairs_found hes hsts').mono fun _ h => h.imp (fun _ hX => ?_) fun _ v hv => .inr ?_
      · obtain ⟨hpair, hrest⟩ := List.forall_mem_cons.mp hX.2
        exact ⟨⟨hX.1, hpair⟩, hrest⟩
      · simpa [List.flatMap_cons, List.append_assoc] using hv
    · simp

/-- Terms matched one by one from one state. -/
theorem pairs_zip {ps ss : List Term} (h : ∀ p ∈ ps, ∀ s ∈ ss, FindsAt σ go p s) (hst : Stored st) :
    Always (pairs go (ps.zip ss) [st])
      (Found σ (List.Forall₂ (Lands σ) ps ss) (ps.flatMap Term.vars) st) := by
  have hself : Found σ True [] st [st] := found_self hst
  refine (pairs_found (fun e he => ?_) hself).mono fun _ h => h.imp (fun _ hX => ?_) fun hX v hv => ?_
  · obtain ⟨hp, hs⟩ := List.of_mem_zip he
    exact h _ hp _ hs
  · exact ⟨trivial, fun e he => (List.forall₂_iff_zip.mp hX).2 he⟩
  · refine .inr ?_
    have hlen : ps.length ≤ ss.length := Nat.le_of_eq hX.length_eq
    rw [← List.map_fst_zip hlen, List.flatMap_map] at hv
    simpa using hv

end Pairs

end RuleCompiler.Matching
