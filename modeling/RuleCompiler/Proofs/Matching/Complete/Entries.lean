import RuleCompiler.Proofs.Matching.Complete.States

/-! # Finding entries, elements and cells

Every part of the subject that is not used yet is tried, so one of them is where the first part of the
pattern lands, and the rest of the pattern lands on the others. -/

namespace RuleCompiler.Matching

open Build (Always)

variable {σ : Substitution} {st : MatchState} {go deeper : Matcher}

/-! ### What is left -/

theorem rest_found {α : Type} {go : α → Term → MatchState → Build (List MatchState)} {Z : α → Prop}
    {V : α → List Var} {bases : List α} {r : Term} (hlen : bases.length ≤ 1)
    (hgo : ∀ b ∈ bases, Always (go b r st) (Found σ (Z b) (V b) st)) (hst : Stored st) :
    Always (rest go bases r st) (Found σ ((bases = [] → r.isEmptyCollection) ∧ ∀ b ∈ bases, Z b)
      (bases.flatMap V) st) := by
  unfold rest
  split
  · refine .pure ?_
    split
    · exact (found_self hst).imp (fun _ hX => hX) fun _ v hv => by simp at hv
    · exact (found_self hst).imp (fun _ hX => hX) fun _ v hv => by simp at hv
    · exact (found_self hst).imp (fun _ hX => hX) fun _ v hv => by simp at hv
    · refine found_none fun _ hX => ?_
      have hempty := hX.1 rfl
      unfold Term.isEmptyCollection at hempty
      split at hempty <;> simp_all
  · rename_i b
    refine (hgo b (List.mem_singleton_self b)).mono fun _ h => h.imp (fun _ hX => ?_) fun _ v hv => ?_
    · exact hX.2 b (List.mem_singleton_self b)
    · exact .inr (by simpa using hv)
  · rename_i hnil hone
    rcases bases with _ | ⟨b, _ | _⟩
    · exact absurd rfl hnil
    · exact absurd rfl (hone b)
    · simp at hlen

/-- A lone unknown part lands on whatever is not used; where there is none everything is used. -/
theorem exists_part {α β γ : Type} {L : α → β → Prop} {N : β → List γ → Prop} {bases : List α}
    {bs : List β} {rests : List (List γ)} {unused : List γ} (hlen : bases.length ≤ 1)
    (hbs : List.Forall₂ L bases bs) (hrests : List.Forall₂ N bs rests)
    (hperm : unused.Perm rests.flatten) :
    (bases = [] ∧ unused = []) ∨ ∃ b t rest, bases = [b] ∧ L b t ∧ N t rest ∧ rest.Perm unused := by
  rcases bases with _ | ⟨b, _ | _⟩
  · cases hbs
    cases hrests
    exact .inl ⟨rfl, hperm.eq_nil⟩
  · cases hbs with
    | cons hb hnil =>
      cases hnil
      cases hrests with
      | @cons _ rest _ _ hrest hnil =>
        cases hnil
        rw [List.flatten_singleton] at hperm
        exact .inr ⟨b, _, rest, rfl, hb, hrest, hperm.symm⟩
  · simp at hlen

/-! ### Maps -/

section Maps
variable {ops : CollectionOps}

/-- The part that a variable stands for, made anew of the same entries. -/
theorem Names.of_entries (hσ : HoldsData σ) {v : Var} {t r : Term} {es es' : List (Term × Term)}
    (h : Names σ v t) (hn : t.node = .map ops es []) (hr : r.IsData) (hn' : r.node = .map ops es' [])
    (hperm : es.Perm es') : Names σ v r := by
  refine h.of_data hσ fun u hu hut => ?_
  have halike := Term.alike_of_beq hut
  rw [hn] at halike
  generalize hm : u.node = m at halike
  cases halike with
  | map he hb =>
    cases hb
    refine hu.beq_of_entries hr hm hn' ?_
    have hcodes := PairedLists.map_eq (f := Term.entryCode) (he.imp fun e e' h => by
      rw [Term.entryCode, Term.entryCode, Term.beq_iff.mp h.1, Term.beq_iff.mp h.2])
    rw [hcodes]
    exact hperm.map _

/-- Entries land on some of those not used yet, and unknown parts on maps of the others. -/
def EntriesLand (σ : Substitution) (ops : CollectionOps) (bases : List Term)
    (pending unused : List (Term × Term)) : Prop :=
  ∃ (used : List (Term × Term)) (bs : List Term) (rests : List (List (Term × Term))),
    List.Forall₂ (Lands σ) (pending.map (·.1)) (used.map (·.1)) ∧
    List.Forall₂ (Lands σ) (pending.map (·.2)) (used.map (·.2)) ∧
    List.Forall₂ (Lands σ) bases bs ∧
    List.Forall₂ (fun b rest => b.node = .map ops rest []) bs rests ∧
    unused.Perm (used ++ rests.flatten)

theorem EntriesLand.exists_cons {bases : List Term} {e : Term × Term}
    {pending unused : List (Term × Term)} (hkeys : unused.Pairwise fun a b => (a.1 == b.1) = false)
    (h : EntriesLand σ ops bases (e :: pending) unused) : ∃ u ∈ unused, Lands σ e.1 u.1 ∧
      Lands σ e.2 u.2 ∧ EntriesLand σ ops bases pending (SortedList.erase u.1 unused) := by
  obtain ⟨used, bs, rests, hk, hv, hbs, hrests, hperm⟩ := h
  rcases used with _ | ⟨u, used⟩
  · cases hk
  cases hk with
  | cons hk hks =>
    cases hv with
    | cons hv hvs =>
      have hu : u ∈ unused := hperm.mem_iff.mpr (List.mem_cons_self)
      refine ⟨u, hu, hk, hv, used, bs, rests, hks, hvs, hbs, hrests, ?_⟩
      exact ((SortedList.perm_cons_filter hkeys hu).symm.trans hperm).cons_inv

theorem EntriesLand.nil {bases : List Term} {unused : List (Term × Term)} (hlen : bases.length ≤ 1)
    (h : EntriesLand σ ops bases [] unused) : (bases = [] ∧ unused = []) ∨ ∃ b t es, bases = [b] ∧
      Lands σ b t ∧ t.node = .map ops es [] ∧ es.Perm unused := by
  obtain ⟨used, bs, rests, hk, -, hbs, hrests, hperm⟩ := h
  obtain rfl : used = [] := by cases used <;> [rfl; cases hk]
  exact exists_part hlen hbs hrests hperm

theorem mapRest_found (hσ : HoldsData σ) {bases : List Term} {unused : List (Term × Term)}
    (hlen : bases.length ≤ 1) (hbases : ∀ b ∈ bases, b.isVar ∧ ∀ s : Term, s.IsData → FindsAt σ go b s)
    (hdata : ∀ u ∈ unused, u.1.IsData ∧ u.2.IsData)
    (hsorted : unused.Pairwise fun a b => a.1.cmp b.1 = .lt) (hst : Stored st) :
    Always (do rest go bases (← MapParts.build { ops, entries := unused }) st)
      (Found σ (EntriesLand σ ops bases [] unused) (bases.flatMap Term.vars) st) := by
  refine (Term.IsData.always_map hsorted hdata).bind fun r ⟨hr, hn⟩ => ?_
  refine (rest_found (Z := fun b => Lands σ b r) hlen (fun b hb => (hbases b hb).2 r hr st hst) hst).mono
    fun _ h => h.imp (fun _ hX => ?_) fun _ _ => .inr
  rcases hX.nil hlen with ⟨rfl, rfl⟩ | ⟨b, t, es, rfl, hland, ht, hperm⟩
  · exact ⟨fun _ => by rw [Term.isEmptyCollection, hn], List.forall_mem_nil _⟩
  · obtain ⟨v, hv⟩ := Term.exists_var (hbases b (List.mem_singleton_self b)).1
    refine ⟨fun hnil => absurd hnil (List.cons_ne_nil _ _), List.forall_mem_singleton.mpr (.var hv ?_)⟩
    exact (hland.names hv).of_entries hσ ht hr hn hperm

theorem mapEntries_found (hσ : HoldsData σ) {bases : List Term} (hlen : bases.length ≤ 1)
    (hbases : ∀ b ∈ bases, b.isVar ∧ ∀ s : Term, s.IsData → FindsAt σ go b s) :
    ∀ {pending unused : List (Term × Term)} {st : MatchState},
      (∀ e ∈ pending, e.1.IsMatchable ∧ e.1.isFirstOrder fun _ => true) →
      (∀ e ∈ pending, ∀ u ∈ unused, FindsAt σ go e.2 u.2) →
      (∀ q : Term, q.IsMatchable → ∀ u ∈ unused, FindsAt σ deeper q u.1) →
      (∀ u ∈ unused, u.1.IsData ∧ u.2.IsData) → (unused.Pairwise fun a b => a.1.cmp b.1 = .lt) →
      Stored st → Always (mapEntries go deeper ops [] bases pending unused st)
        (Found σ (EntriesLand σ ops bases pending unused)
          ((pending.flatMap fun e => e.1.vars ++ e.2.vars) ++ bases.flatMap Term.vars) st)
  | [], unused, st, _, _, _, hdata, hsorted, hst => by
    rw [mapEntries]
    exact mapRest_found hσ hlen hbases hdata hsorted hst
  | (key, value) :: pending, unused, st, hkeys, hgo, hdeeper, hdata, hsorted, hst => by
    obtain ⟨⟨hkey, hfo⟩, hkeys⟩ := List.forall_mem_cons.mp hkeys
    obtain ⟨hvalue, hgo⟩ := List.forall_mem_cons.mp hgo
    have hdiffer : unused.Pairwise fun a b => (a.1 == b.1) = false := hsorted.imp Term.beq_false_of_lt
    rw [mapEntries]
    refine (always_apply (σ := σ) hst hkey hfo).bind fun key' hkey' => ?_
    obtain ⟨hkey', hvars, hlands⟩ := hkey'
    have hnext : ∀ u ∈ unused, ∀ st', Stored st' → Always (do
        (← go value u.2 st').flatMapM
          (mapEntries go deeper ops [] bases pending (SortedList.erase u.1 unused)))
        (Found σ (Lands σ value u.2 ∧ EntriesLand σ ops bases pending (SortedList.erase u.1 unused))
          (value.vars ++ ((pending.flatMap fun e => e.1.vars ++ e.2.vars) ++ bases.flatMap Term.vars))
          st') := by
      intro u hu st' hst'
      have hsub : (SortedList.erase u.1 unused).Sublist unused := List.filter_sublist
      refine (hvalue u hu st' hst').bind fun sts hsts => hsts.next fun st'' _ hst'' => ?_
      exact mapEntries_found hσ hlen hbases hkeys (fun e he w hw => hgo e he w (hsub.subset hw))
        (fun q hq w hw => hdeeper q hq w (hsub.subset hw)) (fun w hw => hdata w (hsub.subset hw))
        (hsorted.sublist hsub) hst''
    -- what the key binds, the value and the other entries may bind as well
    have hbinds (v : Var) (hv : v ∈ (((key, value) :: pending).flatMap fun e => e.1.vars ++ e.2.vars) ++
        bases.flatMap Term.vars) : (st.substitution.get? v).isSome ∨ v ∈ key'.vars ++ (value.vars ++
          ((pending.flatMap fun e => e.1.vars ++ e.2.vars) ++ bases.flatMap Term.vars)) := by
      rw [List.flatMap_cons, List.append_assoc, List.append_assoc] at hv
      rcases List.mem_append.mp hv with hv | hv
      · exact (hvars v hv).imp_right (List.mem_append_left _)
      · exact .inr (List.mem_append_right _ hv)
    split
    · rename_i hground
      refine always_choice (Z := fun u => Lands σ value u.2 ∧
        EntriesLand σ ops bases pending (SortedList.erase u.1 unused)) (fun u hu => ?_) fun hf hX => ?_
      · refine (hnext u (List.mem_filter.mp hu).1 st hst).mono fun _ h => h.imp (fun _ hX => hX)
          fun _ v hv => ?_
        have hnone : key'.vars = [] := (Term.isGround_iff_vars key').mp hground
        simpa only [hnone, List.nil_append] using hbinds v hv
      · obtain ⟨u, hu, hk, hv, hrest⟩ := hX.exists_cons hdiffer
        refine ⟨u, List.mem_filter.mpr ⟨hu, ?_⟩, hv, hrest⟩
        exact BEq.symm ((hlands u.1 hf hk).beq_of_isGround hground)
    · refine always_choice (Z := fun u => Lands σ key' u.1 ∧ Lands σ value u.2 ∧
        EntriesLand σ ops bases pending (SortedList.erase u.1 unused)) (fun u hu => ?_) fun hf hX => ?_
      · refine (hdeeper key' hkey' u hu st hst).bind fun sts hsts => ?_
        exact (hsts.next fun st' _ hst' => hnext u hu st' hst').mono fun _ h =>
          h.imp (fun _ hX => hX) fun _ v hv => hbinds v hv
      · obtain ⟨u, hu, hk, hv, hrest⟩ := hX.exists_cons hdiffer
        exact ⟨u, hu, hlands u.1 hf hk, hv, hrest⟩

end Maps

/-! ### Sets -/

section Sets
variable {ops : CollectionOps}

/-- The part that a variable stands for, made anew of the same elements. -/
theorem Names.of_elements (hσ : HoldsData σ) {v : Var} {t r : Term} {es es' : List Term}
    (h : Names σ v t) (hn : t.node = .set ops es []) (hr : r.IsData) (hn' : r.node = .set ops es' [])
    (hperm : es.Perm es') : Names σ v r := by
  refine h.of_data hσ fun u hu hut => ?_
  have halike := Term.alike_of_beq hut
  rw [hn] at halike
  generalize hm : u.node = m at halike
  cases halike with
  | set he hb =>
    cases hb
    refine hu.beq_of_elements hr hm hn' ?_
    rw [Term.equal_iff.mp he]
    exact hperm.map _

/-- Elements land on some of those not used yet, and unknown parts on sets of the others. -/
def ElementsLand (σ : Substitution) (ops : CollectionOps) (bases pending unused : List Term) : Prop :=
  ∃ (used bs : List Term) (rests : List (List Term)), List.Forall₂ (Lands σ) pending used ∧
    List.Forall₂ (Lands σ) bases bs ∧
    List.Forall₂ (fun b rest => b.node = .set ops rest []) bs rests ∧
    unused.Perm (used ++ rests.flatten)

theorem ElementsLand.exists_cons {bases pending unused : List Term} {e : Term}
    (hdiffer : unused.Pairwise fun a b => (a == b) = false)
    (h : ElementsLand σ ops bases (e :: pending) unused) : ∃ u ∈ unused, Lands σ e u ∧
      ElementsLand σ ops bases pending (unused.filter (· != u)) := by
  obtain ⟨used, bs, rests, he, hbs, hrests, hperm⟩ := h
  cases he with
  | @cons _ u _ used he hes =>
    have hu : u ∈ unused := hperm.mem_iff.mpr (List.mem_cons_self)
    refine ⟨u, hu, he, used, bs, rests, hes, hbs, hrests, ?_⟩
    exact ((SortedList.perm_cons_filter (f := id) hdiffer hu).symm.trans hperm).cons_inv

theorem ElementsLand.nil {bases unused : List Term} (hlen : bases.length ≤ 1)
    (h : ElementsLand σ ops bases [] unused) : (bases = [] ∧ unused = []) ∨ ∃ b t es, bases = [b] ∧
      Lands σ b t ∧ t.node = .set ops es [] ∧ es.Perm unused := by
  obtain ⟨used, bs, rests, he, hbs, hrests, hperm⟩ := h
  cases he
  exact exists_part hlen hbs hrests hperm

theorem setRest_found (hσ : HoldsData σ) {bases unused : List Term} (hlen : bases.length ≤ 1)
    (hbases : ∀ b ∈ bases, b.isVar ∧ ∀ s : Term, s.IsData → FindsAt σ go b s)
    (hdata : ∀ u ∈ unused, u.IsData) (hsorted : unused.Pairwise fun a b => a.cmp b = .lt)
    (hst : Stored st) : Always (do rest go bases (← SetParts.build { ops, elements := unused }) st)
      (Found σ (ElementsLand σ ops bases [] unused) (bases.flatMap Term.vars) st) := by
  refine (Term.IsData.always_set hsorted hdata).bind fun r ⟨hr, hn⟩ => ?_
  refine (rest_found (Z := fun b => Lands σ b r) hlen (fun b hb => (hbases b hb).2 r hr st hst) hst).mono
    fun _ h => h.imp (fun _ hX => ?_) fun _ _ => .inr
  rcases hX.nil hlen with ⟨rfl, rfl⟩ | ⟨b, t, es, rfl, hland, ht, hperm⟩
  · exact ⟨fun _ => by rw [Term.isEmptyCollection, hn], List.forall_mem_nil _⟩
  · obtain ⟨v, hv⟩ := Term.exists_var (hbases b (List.mem_singleton_self b)).1
    refine ⟨fun hnil => absurd hnil (List.cons_ne_nil _ _), List.forall_mem_singleton.mpr (.var hv ?_)⟩
    exact (hland.names hv).of_elements hσ ht hr hn hperm

theorem setElements_found (hσ : HoldsData σ) {bases : List Term} (hlen : bases.length ≤ 1)
    (hbases : ∀ b ∈ bases, b.isVar ∧ ∀ s : Term, s.IsData → FindsAt σ go b s) :
    ∀ {pending unused : List Term} {st : MatchState},
      (∀ e ∈ pending, e.IsMatchable ∧ e.isFirstOrder fun _ => true) →
      (∀ q : Term, q.IsMatchable → ∀ u ∈ unused, FindsAt σ deeper q u) →
      (∀ u ∈ unused, u.IsData) → (unused.Pairwise fun a b => a.cmp b = .lt) →
      Stored st → Always (setElements go deeper ops [] bases pending unused st)
        (Found σ (ElementsLand σ ops bases pending unused)
          (pending.flatMap Term.vars ++ bases.flatMap Term.vars) st)
  | [], unused, st, _, _, hdata, hsorted, hst => by
    rw [setElements]
    exact setRest_found hσ hlen hbases hdata hsorted hst
  | element :: pending, unused, st, hes, hdeeper, hdata, hsorted, hst => by
    obtain ⟨⟨helement, hfo⟩, hes⟩ := List.forall_mem_cons.mp hes
    have hdiffer : unused.Pairwise fun a b => (a == b) = false := hsorted.imp Term.beq_false_of_lt
    rw [setElements]
    refine (always_apply (σ := σ) hst helement hfo).bind fun element' helement' => ?_
    obtain ⟨helement', hvars, hlands⟩ := helement'
    refine always_choice (Z := fun u => Lands σ element' u ∧
      ElementsLand σ ops bases pending (unused.filter (· != u))) (fun u hu => ?_) fun hf hX => ?_
    · have hsub : (unused.filter (· != u)).Sublist unused := List.filter_sublist
      refine (hdeeper element' helement' u (List.mem_filter.mp hu).1 st hst).bind fun sts hsts => ?_
      refine (hsts.next fun st' _ hst' => setElements_found hσ hlen hbases hes
        (fun q hq w hw => hdeeper q hq w (hsub.subset hw)) (fun w hw => hdata w (hsub.subset hw))
        (hsorted.sublist hsub) hst').mono fun _ h => h.imp (fun _ hX => hX) fun _ v hv => ?_
      rw [List.flatMap_cons, List.append_assoc] at hv
      rcases List.mem_append.mp hv with hv | hv
      · exact (hvars v hv).imp_right (List.mem_append_left _)
      · exact .inr (List.mem_append_right _ hv)
    · obtain ⟨u, hu, he, hrest⟩ := hX.exists_cons hdiffer
      have hland := hlands u hf he
      refine ⟨u, List.mem_filter.mpr ⟨hu, ?_⟩, hland, hrest⟩
      cases hground : element'.isGround with
      | false => rfl
      | true => exact hland.beq_of_isGround hground

end Sets

/-! ### Cells -/

/-- The part that a frame stands for, made anew of the same cells. -/
theorem Names.of_cells (hσ : HoldsData σ) {v : Var} {t r : Term} {cs cs' : List Cell}
    (h : Names σ v t) (hn : t.node = .cells cs []) (hr : r.IsData) (hn' : r.node = .cells cs' [])
    (hperm : cs.Perm cs') : Names σ v r := by
  refine h.of_data hσ fun u hu hut => ?_
  have halike := Term.alike_of_beq hut
  rw [hn] at halike
  generalize hm : u.node = m at halike
  cases halike with
  | cells hcs =>
    refine hu.beq_of_cells hr hm hn' ?_
    have hcodes := PairedLists.map_eq (f := fun c : Cell => (c.multiplicity, CellParts.cellCode c))
      (hcs.imp fun c c' h => by
        rw [CellParts.cellCode, CellParts.cellCode, h.1, h.2.1, Term.beq_iff.mp h.2.2])
    rw [hcodes]
    exact hperm.map _

/-- Cells land on some of those not used yet, and frames on groups of the others. -/
def CellsLand (σ : Substitution) (frames : List Var) (pending : List Cell)
    (unused : List (Nat × Cell)) : Prop :=
  ∃ (used others : List (Nat × Cell)) (fs : List Term) (rests : List (List Cell)),
    List.Forall₂ (fun c (u : Nat × Cell) => u.2.label = c.label ∧ Lands σ c.content u.2.content)
      pending used ∧
    List.Forall₂ (Names σ) frames fs ∧
    List.Forall₂ (fun f rest => f.node = .cells rest []) fs rests ∧
    unused.Perm (used ++ others) ∧ (others.map (·.2)).Perm rests.flatten

theorem CellsLand.exists_cons {frames : List Var} {c : Cell} {pending : List Cell}
    {unused : List (Nat × Cell)} (hnumbers : unused.Pairwise fun a b => (a.1 == b.1) = false)
    (h : CellsLand σ frames (c :: pending) unused) : ∃ u ∈ unused, u.2.label = c.label ∧
      Lands σ c.content u.2.content ∧ CellsLand σ frames pending (unused.filter (·.1 != u.1)) := by
  obtain ⟨used, others, fs, rests, hc, hfs, hrests, hperm, hothers⟩ := h
  cases hc with
  | @cons _ u _ used hc hcs =>
    have hu : u ∈ unused := hperm.mem_iff.mpr (List.mem_cons_self)
    refine ⟨u, hu, hc.1, hc.2, used, others, fs, rests, hcs, hfs, hrests, ?_, hothers⟩
    exact ((SortedList.perm_cons_filter hnumbers hu).symm.trans hperm).cons_inv

theorem CellsLand.nil {frames : List Var} {unused : List (Nat × Cell)} (hlen : frames.length ≤ 1)
    (h : CellsLand σ frames [] unused) : (frames = [] ∧ unused = []) ∨ ∃ v t cs, frames = [v] ∧
      Names σ v t ∧ t.node = .cells cs [] ∧ cs.Perm (unused.map (·.2)) := by
  obtain ⟨used, others, fs, rests, hc, hfs, hrests, hperm, hothers⟩ := h
  cases hc
  rcases exists_part hlen hfs hrests ((hperm.map _).trans hothers) with ⟨hframes, hnone⟩ | hpart
  · exact .inl ⟨hframes, List.map_eq_nil_iff.mp hnone⟩
  · exact .inr hpart

theorem cellsRest_found (hσ : HoldsData σ) {frames : List Var} {unused : List (Nat × Cell)}
    (hlen : frames.length ≤ 1) (hframes : ∀ v ∈ frames, v.isDontCare = false)
    (hdata : ∀ u ∈ unused, u.2.content.IsData) (huniform : CellParts.isUniform (unused.map (·.2)))
    (hst : Stored st) : Always (do
        let remainder ← CellParts.build { cells := unused.map (·.2) }
        rest (fun v s state => return bind v s state) frames remainder st)
      (Found σ (CellsLand σ frames [] unused) frames st) := by
  have hcells : ∀ c ∈ unused.map (·.2), c.content.IsData := List.forall_mem_map.mpr hdata
  refine (Term.IsData.always_cells huniform hcells).bind fun r ⟨hr, hn⟩ => ?_
  refine (rest_found (Z := fun v => Names σ v r) (V := fun v => [v]) hlen
    (fun v hv => .pure (bind_found (hframes v hv) hr hst)) hst).mono fun _ h =>
      h.imp (fun _ hX => ?_) fun _ v hv => .inr (by simpa using hv)
  rcases hX.nil hlen with ⟨rfl, rfl⟩ | ⟨v, t, cs, rfl, hname, ht, hperm⟩
  · exact ⟨fun _ => by rw [Term.isEmptyCollection, hn]; rfl, List.forall_mem_nil _⟩
  · have hsort : (SortedList.sort CellParts.compareCells (unused.map (·.2))).Perm
        (unused.map (·.2)) := SortedList.perm_sort _
    refine ⟨fun hnil => absurd hnil (List.cons_ne_nil _ _), List.forall_mem_singleton.mpr ?_⟩
    exact hname.of_cells hσ ht hr hn (hperm.trans hsort.symm)

theorem cells_found (hσ : HoldsData σ) {frames : List Var} (hlen : frames.length ≤ 1)
    (hframes : ∀ v ∈ frames, v.isDontCare = false) :
    ∀ {pending : List Cell} {unused : List (Nat × Cell)} {st : MatchState},
      (∀ c ∈ pending, ∀ u ∈ unused, FindsAt σ go c.content u.2.content) →
      (∀ u ∈ unused, u.2.content.IsData) → (unused.Pairwise fun a b => (a.1 == b.1) = false) →
      CellParts.isUniform (unused.map (·.2)) → Stored st →
        Always (cells go [] frames pending unused st) (Found σ (CellsLand σ frames pending unused)
          ((pending.map (·.content)).flatMap Term.vars ++ frames) st)
  | [], unused, st, _, hdata, _, huniform, hst => by
    rw [cells]
    exact cellsRest_found hσ hlen hframes hdata huniform hst
  | cell :: pending, unused, st, hgo, hdata, hnumbers, huniform, hst => by
    obtain ⟨hcell, hgo⟩ := List.forall_mem_cons.mp hgo
    rw [cells]
    refine always_choice (Z := fun u => Lands σ cell.content u.2.content ∧
      CellsLand σ frames pending (unused.filter (·.1 != u.1))) (fun u hu => ?_) fun hf hX => ?_
    · have hsub : (unused.filter (·.1 != u.1)).Sublist unused := List.filter_sublist
      refine (hcell u (List.mem_filter.mp hu).1 st hst).bind fun sts hsts => ?_
      refine (hsts.next fun st' _ hst' => cells_found hσ hlen hframes
        (fun c hc w hw => hgo c hc w (hsub.subset hw)) (fun w hw => hdata w (hsub.subset hw))
        (hnumbers.sublist hsub) (CellParts.isUniform_mono huniform fun c hc => ?_) hst').mono
          fun _ h => h.imp (fun _ hX => hX) fun _ v hv => .inr ?_
      · exact (hsub.map _).subset hc
      · simpa using hv
    · obtain ⟨u, hu, hlabel, hland, hrest⟩ := hX.exists_cons hnumbers
      exact ⟨u, List.mem_filter.mpr ⟨hu, beq_iff_eq.mpr hlabel⟩, hland, hrest⟩

end RuleCompiler.Matching
