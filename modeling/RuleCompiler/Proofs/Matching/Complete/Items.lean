import RuleCompiler.Proofs.Matching.Complete.States

/-! # Finding sequences and lists

Every cut of the items is tried, so one of them is where the segments and unknown parts of the pattern
meet. -/

namespace RuleCompiler.Matching

open Build (Always)

variable {σ : Substitution} {st : MatchState} {go : Matcher}

/-! ### Sequences -/

/-- What a pattern other than a segment lands on is a single item. -/
theorem Lands.items_eq {p t : Term} (hσ : HoldsData σ) (h : Lands σ p t)
    (hseq : ∀ items frame, p.node ≠ .seq items frame) (hseg : segment? p = none) : t.items = [t] := by
  have hsingle {u : Term} (hu : u.IsData) (hut : u == t)
      (hno : ∀ items frame, u.node ≠ .seq items frame) : t.items = [t] := by
    refine Term.items_of_not_seq (by rw [← Term.isGround_congr hut]; exact hu.isGround) ?_
    intro items frame hn
    have halike := Term.alike_of_beq hut
    rw [hn] at halike
    generalize hm : u.node = m at halike
    cases halike
    exact hno _ _ hm
  cases h with
  | ground hp h =>
    refine Term.items_of_not_seq (by rwa [← Term.isGround_congr h]) fun items frame hn => ?_
    have halike := Term.alike_of_beq h
    rw [hn] at halike
    generalize hm : p.node = m at halike
    cases halike
    exact hseq _ _ hm
  | @var _ _ v hn h =>
    obtain ⟨u, hu, hut, hsort⟩ := h
    refine hsingle (hσ v u hu) hut fun items frame hn' => ?_
    have hk : u.sort = .k := by rw [Term.sort_eq, hn']
    rw [segment?, Term.asVar?_of_var hn] at hseg
    rw [← Term.sort_congr hut, hk] at hsort
    have hne : v.sort ≠ .k := by simpa using hseg
    simp only [SortName.subsortOf, Bool.or_eq_true, Bool.and_eq_true, beq_iff_eq] at hsort
    rcases hsort with (h | h) | ⟨-, h⟩
    · exact hne h.symm
    · exact hne h
    · exact absurd h (by decide)
  | sequence _ hn => exact absurd hn (hseq _ _)
  | app _ _ hs => rw [Term.items, sequenceView, hs]
  | freezer _ _ hs => rw [Term.items, sequenceView, hs]
  | list _ _ hs => rw [Term.items, sequenceView, hs]
  | map _ _ hs => rw [Term.items, sequenceView, hs]
  | set _ _ hs => rw [Term.items, sequenceView, hs]
  | cells _ _ hs => rw [Term.items, sequenceView, hs]

/-- Items, and the frame, land on terms that together have the items `ss`. -/
def ItemsLand (σ : Substitution) (frame : Option Var) (ps ss : List Term) : Prop :=
  ∃ ts fs, List.Forall₂ (Lands σ) ps ts ∧ List.Forall₂ (Names σ) frame.toList fs ∧
    ss = (ts ++ fs).flatMap Term.items

namespace ItemsLand
variable {p : Term} {ps ss : List Term} {frame : Option Var}

theorem nil (h : ItemsLand σ none [] ss) : ss = [] := by
  obtain ⟨ts, fs, hts, hfs, hs⟩ := h
  cases hts
  cases hfs
  exact hs

theorem exists_frame {v : Var} (h : ItemsLand σ (some v) [] ss) : ∃ t, Names σ v t ∧ t.items = ss := by
  obtain ⟨ts, fs, hts, hfs, hs⟩ := h
  cases hts
  cases hfs with
  | cons h hnil =>
    cases hnil
    exact ⟨_, h, by rw [hs]; simp⟩

theorem exists_cons (h : ItemsLand σ frame (p :: ps) ss) : ∃ t rest, ss = t.items ++ rest ∧
    Lands σ p t ∧ ItemsLand σ frame ps rest := by
  obtain ⟨ts, fs, hts, hfs, hs⟩ := h
  cases hts with
  | @cons _ t _ ts h hts =>
    exact ⟨t, _, by rw [hs, List.cons_append, List.flatMap_cons], h, ts, fs, hts, hfs, rfl⟩

end ItemsLand

/-- A variable is found to stand for a run where it stands for something that has these items. -/
theorem run_found (hσ : HoldsData σ) {v : Var} (hv : v.isDontCare = false) {ss : List Term}
    (hss : ∀ s ∈ ss, s.IsData ∧ s.items = [s]) : Always (Term.sequenceFrom ss none) fun r =>
      ∀ st, Stored st → Found σ (∃ t, Names σ v t ∧ t.items = ss) [v] st (bind v r st) := by
  refine (Term.IsData.always_sequenceFrom hss).mono fun r ⟨hr, hitems⟩ st hst => ?_
  refine (bind_found hv hr hst).imp (fun _ ⟨t, h, ht⟩ => ?_) fun _ _ => .inr
  exact h.of_data hσ fun u hu hut =>
    hu.beq_of_items hr (hitems.symm ▸ ht ▸ Term.items_congr hut)

theorem sequence_found (hσ : HoldsData σ) {frame : Option Var}
    (hframe : ∀ v ∈ frame, v.isDontCare = false) : ∀ {ps ss : List Term} {st : MatchState},
      (∀ p ∈ ps, p.IsMatchable ∧ ∀ items frame, p.node ≠ .seq items frame) →
      (∀ p ∈ ps, ∀ s ∈ ss, FindsAt σ go p s) → (∀ s ∈ ss, s.IsData ∧ s.items = [s]) → Stored st →
        Always (sequence go frame none ps ss st)
          (Found σ (ItemsLand σ frame ps ss) (ps.flatMap Term.vars ++ frame.toList) st)
  | [], ss, st, _, _, hss, hst => by
    rw [sequence.eq_def]
    dsimp only
    split
    · rename_i v
      refine (run_found hσ (hframe v rfl) hss).bind fun r hr => .pure ((hr st hst).imp ?_ ?_)
      · exact fun _ hX => hX.exists_frame
      · exact fun _ w hw => .inr (by simpa using hw)
    · refine .pure ((found_if hst fun hX => ?_).imp (fun _ hX => hX) fun _ w hw => by simp at hw)
      rw [hX.nil]
      rfl
  | p :: ps, ss, st, hps, hgo, hss, hst => by
    obtain ⟨⟨hp, hseq⟩, hps⟩ := List.forall_mem_cons.mp hps
    rw [sequence.eq_def]
    dsimp only
    split
    · rename_i v hv
      have hn := segment?_eq hv
      have hvars : p.vars = [v] := by rw [Term.vars_eq, hn]
      have hnamed := hp.named_of_var hn
      split
      · rename_i hlast
        simp only [Bool.and_eq_true, List.isEmpty_iff, Option.isNone_iff_eq_none] at hlast
        obtain ⟨rfl, rfl⟩ := hlast
        refine (run_found hσ hnamed hss).bind fun r hr => .pure ((hr st hst).imp (fun _ hX => ?_) ?_)
        · obtain ⟨t, rest, rfl, h, hrest⟩ := hX.exists_cons
          exact ⟨t, h.names hn, by rw [hrest.nil, List.append_nil]⟩
        · exact fun _ w hw => .inr (by simpa [hvars] using hw)
      · refine always_choice (Z := fun e => (∃ t, Names σ v t ∧ t.items = e.1) ∧
          ItemsLand σ frame ps e.2) (fun ⟨front, back⟩ hsplit => ?_) fun _ hX => ?_
        · rw [← mem_splits hsplit, List.forall_mem_append] at hss
          have hback : ∀ q ∈ ps, ∀ s ∈ back, FindsAt σ go q s := fun q hq s hs =>
            hgo q (List.mem_cons_of_mem p hq) s (mem_splits hsplit ▸ List.mem_append_right front hs)
          refine (run_found hσ hnamed hss.1).bind fun r hr => ?_
          refine ((hr st hst).next fun st' _ hst' =>
            sequence_found hσ hframe hps hback hss.2 hst').mono fun _ h => h.imp (fun _ hX => hX) ?_
          exact fun _ w hw => .inr (by simpa [hvars] using hw)
        · obtain ⟨t, rest, rfl, h, hrest⟩ := hX.exists_cons
          exact ⟨(t.items, rest), mem_splits_append _ _, ⟨t, h.names hn, rfl⟩, hrest⟩
    · rename_i hv
      split
      · refine .pure (found_none fun _ hX => ?_)
        obtain ⟨t, rest, hs, h, -⟩ := hX.exists_cons
        rw [h.items_eq hσ hseq hv] at hs
        cases hs
      · rename_i s ss
        obtain ⟨-, hss⟩ := List.forall_mem_cons.mp hss
        refine (hgo p List.mem_cons_self s List.mem_cons_self st hst).bind fun sts hsts => ?_
        refine (hsts.next fun st' _ hst' => sequence_found hσ hframe hps (fun q hq s' hs' =>
          hgo q (List.mem_cons_of_mem p hq) s' (List.mem_cons_of_mem s hs')) hss hst').mono fun _ h =>
            h.imp (fun _ hX => ?_) fun _ w hw => .inr (by simpa using hw)
        obtain ⟨t, rest, hs, hland, hrest⟩ := hX.exists_cons
        rw [hland.items_eq hσ hseq hv] at hs
        cases hs
        exact ⟨hland, hrest⟩

/-! ### Lists -/

/-- Unknown parts of a list of `ops` land on lists that together have the items. -/
def RunsLand (σ : Substitution) (ops : CollectionOps) (bases items : List Term) : Prop :=
  ∃ bs runs, List.Forall₂ (Lands σ) bases bs ∧
    List.Forall₂ (fun b run => b.node = .list ops run [] []) bs runs ∧ items = runs.flatten

namespace RunsLand
variable {ops : CollectionOps} {b : Term} {bases items : List Term}

theorem nil (h : RunsLand σ ops [] items) : items = [] := by
  obtain ⟨bs, runs, hbs, hruns, rfl⟩ := h
  cases hbs
  cases hruns
  rfl

theorem exists_cons (h : RunsLand σ ops (b :: bases) items) : ∃ t run rest, items = run ++ rest ∧
    t.node = .list ops run [] [] ∧ Lands σ b t ∧ RunsLand σ ops bases rest := by
  obtain ⟨bs, runs, hbs, hruns, rfl⟩ := h
  cases hbs with
  | @cons _ t _ bs hb hbs =>
    cases hruns with
    | @cons _ run _ runs hrun hruns =>
      exact ⟨t, run, runs.flatten, rfl, hrun, hb, bs, runs, hbs, hruns, rfl⟩

theorem cut_run {run : List Term} (hn : b.node = .list ops run [] [])
    (h : RunsLand σ ops (b :: bases) items) : run.length ≤ items.length ∧
      List.Forall₂ (Lands σ) run (items.take run.length) ∧
        RunsLand σ ops bases (items.drop run.length) := by
  obtain ⟨t, front, rest, rfl, ht, hland, hrest⟩ := h.exists_cons
  have hfront := hland.exists_run hn ht
  rw [hfront.length_eq, List.take_left, List.drop_left, List.length_append]
  exact ⟨Nat.le_add_right _ _, hfront, hrest⟩

end RunsLand

/-- An unknown part is found in whatever is data, and the items of a run among those given. -/
def FindsPart (σ : Substitution) (go : Matcher) (ops : CollectionOps) (items : List Term) (b : Term) :
    Prop :=
  b.isVar ∧ (∀ s : Term, s.IsData → FindsAt σ go b s) ∨
    ListParts.isRun ops b ∧ ∀ c ∈ b.children, ∀ s ∈ items, FindsAt σ go c s

theorem FindsPart.mono {ops : CollectionOps} {b : Term} {items items' : List Term}
    (h : FindsPart σ go ops items b) (hsub : ∀ s ∈ items', s ∈ items) : FindsPart σ go ops items' b :=
  h.imp_right fun h => ⟨h.1, fun c hc s hs => h.2 c hc s (hsub s hs)⟩

section Middle
variable {ops : CollectionOps} {b : Term} {bases items : List Term} (hst : Stored st)
include hst

theorem knownPart_found {run : List Term} (hn : b.node = .list ops run [] [])
    (hgo : ∀ c ∈ b.children, ∀ s ∈ items, FindsAt σ go c s)
    (hnext : ∀ st', Stored st' → Always (listMiddle go ops bases (items.drop run.length) st')
      (Found σ (RunsLand σ ops bases (items.drop run.length)) (bases.flatMap Term.vars) st')) :
    Always (if run.length ≤ items.length then do
        (← pairs go (run.zip items) [st]).flatMapM
          (listMiddle go ops bases (items.drop run.length)) else pure [])
      (Found σ (RunsLand σ ops (b :: bases) items) ((b :: bases).flatMap Term.vars) st) := by
  have hchildren : b.children = run := by rw [Term.children, hn]; exact List.append_nil run
  have hvars : b.vars = run.flatMap Term.vars := by
    rw [Term.vars_eq, hn, hchildren, Term.frames, hn]
    exact List.append_nil _
  split
  · rename_i hlen
    have hzip : run.zip items = run.zip (items.take run.length) := by
      rw [List.zip_eq_zip_take_min, Nat.min_eq_left hlen, List.take_length]
    rw [hzip]
    have hitems : ∀ c ∈ run, ∀ s ∈ items.take run.length, FindsAt σ go c s := fun c hc s hs =>
      hgo c (hchildren ▸ hc) s (List.mem_of_mem_take hs)
    refine (pairs_zip hitems hst).bind fun sts hsts => ?_
    exact (hsts.next fun st' _ hst' => hnext st' hst').mono fun _ h =>
      h.imp (fun _ hX => (hX.cut_run hn).2) fun _ w hw => .inr (by simpa [hvars] using hw)
  · rename_i hlen
    exact .pure (found_none fun _ hX => hlen (hX.cut_run hn).1)

theorem unknownPart_found (hop : ops.isOperator = false) (hvar : b.isVar)
    (hgo : ∀ s : Term, s.IsData → FindsAt σ go b s) (hitems : ∀ s ∈ items, s.IsData)
    (hnext : ∀ front back, front ++ back = items → ∀ st', Stored st' →
      Always (listMiddle go ops bases back st')
        (Found σ (RunsLand σ ops bases back) (bases.flatMap Term.vars) st')) :
    Always ((if bases.isEmpty then [(items, [])] else splits items).flatMapM fun (front, back) => do
        (← go b (← listOf ops front) st).flatMapM (listMiddle go ops bases back))
      (Found σ (RunsLand σ ops (b :: bases) items) ((b :: bases).flatMap Term.vars) st) := by
  obtain ⟨v, hn⟩ := Term.exists_var hvar
  refine always_choice (Z := fun e => (∃ t, t.node = .list ops e.1 [] [] ∧ Lands σ b t) ∧
    RunsLand σ ops bases e.2) (fun ⟨front, back⟩ hsplit => ?_) fun _ hX => ?_
  · have happend : front ++ back = items := by
      split at hsplit
      · cases List.mem_singleton.mp hsplit
        exact List.append_nil _
      · exact mem_splits hsplit
    have hfront : ∀ s ∈ front, s.IsData := fun s hs =>
      hitems s (happend ▸ List.mem_append_left back hs)
    refine (Term.IsData.always_listOf hop hfront).bind fun r ⟨hr, hrn⟩ => ?_
    refine (hgo r hr st hst).bind fun sts hsts => ?_
    refine (hsts.next fun st' _ hst' => hnext front back happend st' hst').mono fun _ h =>
      h.imp (fun _ ⟨⟨t, ht, hland⟩, hrest⟩ => ⟨.var hn ?_, hrest⟩) fun _ w hw => .inr (by simpa using hw)
    refine (hland.names hn).congr (Term.beq_of_alike ?_)
    rw [ht, hrn]
    exact .list (Term.Equal.refl front) .nil .nil
  · obtain ⟨t, run, rest, rfl, ht, hland, hrest⟩ := hX.exists_cons
    refine ⟨(run, rest), ?_, ⟨t, ht, hland⟩, hrest⟩
    split
    · rename_i hlast
      rw [List.isEmpty_iff.mp hlast] at hrest
      rw [hrest.nil, List.append_nil]
      exact List.mem_singleton_self _
    · exact mem_splits_append run rest

end Middle

theorem listMiddle_found {ops : CollectionOps} (hop : ops.isOperator = false) :
    ∀ {bases items : List Term} {st : MatchState}, (∀ b ∈ bases, FindsPart σ go ops items b) →
      (∀ s ∈ items, s.IsData) → Stored st → Always (listMiddle go ops bases items st)
        (Found σ (RunsLand σ ops bases items) (bases.flatMap Term.vars) st)
  | [], items, st, _, _, hst => by
    rw [listMiddle]
    refine .pure ((found_if hst fun hX => ?_).imp (fun _ hX => hX) fun _ w hw => by simp at hw)
    rw [hX.nil]
    rfl
  | b :: bases, items, st, hgo, hitems, hst => by
    obtain ⟨hb, hbases⟩ := List.forall_mem_cons.mp hgo
    have hnext {back : List Term} (hsub : ∀ s ∈ back, s ∈ items) (st' : MatchState) (hst' : Stored st') :=
      listMiddle_found hop (fun c hc => (hbases c hc).mono hsub) (fun s hs => hitems s (hsub s hs)) hst'
    rw [listMiddle]
    rcases hb with ⟨hvar, hfinds⟩ | ⟨hrun, hchildren⟩
    · obtain ⟨v, hn⟩ := Term.exists_var hvar
      rw [hn]
      refine unknownPart_found hst hop hvar hfinds hitems fun front back happend => ?_
      exact hnext fun s hs => happend ▸ List.mem_append_right front hs
    · obtain ⟨run, hn, -⟩ := ListParts.node_of_isRun hrun
      rw [hn]
      simp only [List.isEmpty_nil, Bool.true_and, decide_eq_true_eq]
      exact knownPart_found hst hn hchildren (hnext fun s hs => List.mem_of_mem_drop hs)

/-- What is cut off at the ends and what is left in the middle. -/
theorem cut_ends {α β : Type} {left right : List α} {ls rs : List β}
    (hl : left.length = ls.length) (hr : right.length = rs.length) (middle : List β) :
    left.zip (ls ++ (middle ++ rs)) = left.zip ls ∧
      (ls ++ (middle ++ rs)).drop ((ls ++ (middle ++ rs)).length - right.length) = rs ∧
      ((ls ++ (middle ++ rs)).drop left.length).take
        ((ls ++ (middle ++ rs)).length - right.length - left.length) = middle := by
  refine ⟨?_, ?_, ?_⟩
  · rw [← List.append_nil left, List.zip_append hl, List.zip_nil_left, List.append_nil,
      List.append_nil]
  · rw [← List.append_assoc]
    refine List.drop_left' ?_
    simp only [List.length_append]
    omega
  · rw [List.drop_left' hl.symm]
    refine List.take_left' ?_
    simp only [List.length_append]
    omega

/-- Ends of a list land on the ends of the items, and its unknown parts on what is between. -/
def EndsLand (σ : Substitution) (ops : CollectionOps) (left base right items : List Term) : Prop :=
  ∃ ls middle rs, items = ls ++ (middle ++ rs) ∧ List.Forall₂ (Lands σ) left ls ∧
    RunsLand σ ops base middle ∧ List.Forall₂ (Lands σ) right rs

theorem EndsLand.length_le {ops : CollectionOps} {left base right items : List Term}
    (h : EndsLand σ ops left base right items) : left.length + right.length ≤ items.length ∧
      (base = [] → left.length + right.length = items.length) := by
  obtain ⟨ls, middle, rs, rfl, hl, hm, hr⟩ := h
  rw [List.length_append, List.length_append, hl.length_eq, hr.length_eq]
  refine ⟨by omega, ?_⟩
  rintro rfl
  rw [hm.nil, List.length_nil]
  omega

theorem list_found {ops : CollectionOps} (hop : ops.isOperator = false)
    {left base right items : List Term} (hends : ∀ p ∈ left ++ right, ∀ s ∈ items, FindsAt σ go p s)
    (hbase : ∀ b ∈ base, FindsPart σ go ops items b) (hitems : ∀ s ∈ items, s.IsData)
    (hst : Stored st) :
    Always (list go { ops, left, base, right } { ops, left := items } st)
      (Found σ (EndsLand σ ops left base right items)
        (left.flatMap Term.vars ++ (base.flatMap Term.vars ++ right.flatMap Term.vars)) st) := by
  unfold list
  simp only [List.isEmpty_nil, Bool.not_true, Bool.false_eq_true, if_false]
  split
  · rename_i hlen
    refine .pure (found_none fun _ hX => ?_)
    simp only [Bool.or_eq_true, decide_eq_true_eq, Bool.and_eq_true, List.isEmpty_iff,
      bne_iff_ne] at hlen
    rcases hlen with hlen | ⟨hnone, hlen⟩
    · exact absurd hX.length_le.1 (Nat.not_le_of_lt hlen)
    · exact hlen (hX.length_le.2 hnone)
  · rename_i hlen
    simp only [Bool.or_eq_true, decide_eq_true_eq, Bool.and_eq_true, bne_iff_ne, not_or,
      Nat.not_lt] at hlen
    have hlen := hlen.1
    have hmiddle (s : Term) (hs : s ∈ (items.drop left.length).take
        (items.length - right.length - left.length)) : s ∈ items :=
      List.mem_of_mem_drop (List.mem_of_mem_take hs)
    have hpairs : ∀ e ∈ left.zip items ++ right.zip (items.drop (items.length - right.length)),
        FindsAt σ go e.1 e.2 := by
      refine List.forall_mem_append.mpr ⟨fun e he => ?_, fun e he => ?_⟩
      · obtain ⟨hp, hs⟩ := List.of_mem_zip he
        exact hends _ (List.mem_append_left right hp) _ hs
      · obtain ⟨hp, hs⟩ := List.of_mem_zip he
        exact hends _ (List.mem_append_right left hp) _ (List.mem_of_mem_drop hs)
    have hvars {ps ss : List Term} (h : ps.length ≤ ss.length) :
        (ps.zip ss).flatMap (fun e => e.1.vars) = ps.flatMap Term.vars := by
      rw [← List.flatMap_map, List.map_fst_zip h]
    have hself : Found σ True [] st [st] := found_self hst
    refine (pairs_found hpairs hself).bind fun sts hsts => ?_
    refine (hsts.next fun st' _ hst' => listMiddle_found hop (fun b hb => (hbase b hb).mono hmiddle)
      (fun s hs => hitems s (hmiddle s hs)) hst').mono fun _ h => h.imp (fun _ hX => ?_)
        fun _ v hv => .inr ?_
    · obtain ⟨ls, middle, rs, rfl, hl, hm, hr⟩ := hX
      obtain ⟨hfront, hback, hbetween⟩ := cut_ends hl.length_eq hr.length_eq middle
      rw [hfront, hback, hbetween]
      refine ⟨⟨trivial, List.forall_mem_append.mpr ⟨fun e he => ?_, fun e he => ?_⟩⟩, hm⟩
      · exact (List.forall₂_iff_zip.mp hl).2 he
      · exact (List.forall₂_iff_zip.mp hr).2 he
    · rw [List.nil_append, List.flatMap_append, hvars (by omega),
        hvars (by rw [List.length_drop]; omega)]
      simp only [List.mem_append] at hv ⊢
      tauto

end RuleCompiler.Matching
