import RuleCompiler.Proofs.Matching.Fits
import RuleCompiler.Proofs.Term.Walk

/-! # What a match binds

A match binds variables to parts of the subject and to collections of such parts. Whatever holds
of the subject and passes on to those holds of every bound term. -/

namespace RuleCompiler

open Build (From)

namespace Matching

/-- From the number `n` on, a property of terms passes on to parts and to the collections that a match
makes of them; `Q` is what it says of frames. -/
structure PassesOn (n : Nat) (P : Nat → Term → Prop) (Q : Var → Prop) : Prop where
  mono : ∀ {k m : Nat} {t : Term}, k ≤ m → P k t → P m t
  child : ∀ {k : Nat} {t c : Term}, P k t → c ∈ t.children → P k c
  frame : ∀ {k : Nat} {t : Term} {v : Var}, P k t → v ∈ t.frames → Q v
  var : ∀ {k : Nat} {t : Term} {v : Var}, P k t → t.node = .var v → Q v
  sequence : ∀ {k : Nat} {ts : List Term} {frame : Option Var}, n ≤ k → (∀ t ∈ ts, P k t) →
    (∀ v ∈ frame, Q v) → From k P (Term.sequenceFrom ts frame)
  list : ∀ {k : Nat} {ops : CollectionOps} {ts : List Term}, n ≤ k → (∀ t ∈ ts, P k t) →
    From k P (listOf ops ts)
  map : ∀ {k : Nat} {ops : CollectionOps} {entries : List (Term × Term)} {base : List Term},
    n ≤ k → (∀ e ∈ entries, P k e.1 ∧ P k e.2) → (∀ t ∈ base, P k t) →
      From k P (base.foldl MapParts.concat { ops, entries }).build
  set : ∀ {k : Nat} {ops : CollectionOps} {elements base : List Term}, n ≤ k →
    (∀ t ∈ elements, P k t) → (∀ t ∈ base, P k t) →
      From k P (base.foldl SetParts.concat { ops, elements }).build
  cells : ∀ {k : Nat} {cells : List Cell} {frames : List Var}, n ≤ k →
    (∀ c ∈ cells, P k c.content) → (∀ v ∈ frames, Q v) → From k P (CellParts.build ⟨cells, frames⟩)

/-- What builders keep passes on. -/
theorem PassesOn.of_kept {n : Nat} {P : Nat → Term → Prop} {Q : Var → Prop} (h : Kept n P Q)
    (child : ∀ {k : Nat} {t c : Term}, P k t → c ∈ t.children → P k c) : PassesOn n P Q where
  mono := h.mono
  child := child
  frame := h.frame
  var := h.var
  sequence hk hts hf := Term.kept_sequenceFrom h hk hts hf
  list hk hts :=
    ListParts.kept_build h hk (ListParts.holds_addItems (ListParts.holds_empty _ _) hts)
  map hk he hb := MapParts.kept_build h hk (MapParts.holds_concatAll h
    ⟨fun e hm => (he e hm).1, fun e hm => (he e hm).2, List.forall_mem_nil _⟩ hb)
  set hk he hb :=
    SetParts.kept_build h hk (SetParts.holds_concatAll h ⟨he, List.forall_mem_nil _⟩ hb)
  cells hk hc hf := CellParts.kept_build h hk ⟨hc, hf⟩

/-- Every variable is bound to a term of its sort that satisfies `R`. -/
def Binds (R : Term → Prop) (st : MatchState) : Prop :=
  ∀ v t, st.substitution.get? v = some t → R t ∧ t.sort.subsortOf v.sort

/-- Every state of a list binds such terms only. -/
abbrev AllBind (P : Nat → Term → Prop) (k : Nat) (sts : List MatchState) : Prop :=
  ∀ st ∈ sts, Binds (P k) st

/-- A matcher binds such terms only, as long as the subject is one. -/
def Keeps (n : Nat) (P : Nat → Term → Prop) (go : Matcher) : Prop :=
  ∀ k p s st, n ≤ k → P k s → Binds (P k) st → From k (AllBind P) (go p s st)

section Helpers
variable {n k m : Nat} {P : Nat → Term → Prop} {Q : Var → Prop} {go deeper : Matcher}
  {st : MatchState}

theorem Binds.mono (hP : PassesOn n P Q) (hm : k ≤ m) (h : Binds (P k) st) : Binds (P m) st :=
  fun v t ht => ⟨hP.mono hm (h v t ht).1, (h v t ht).2⟩

theorem PassesOn.all_mono (hP : PassesOn n P Q) (hm : k ≤ m) {ts : List Term}
    (hts : ∀ t ∈ ts, P k t) : ∀ t ∈ ts, P m t :=
  fun t ht => hP.mono hm (hts t ht)

theorem returns_none : From k (AllBind P) (pure [] : Build (List MatchState)) :=
  .pure (List.forall_mem_nil _)

theorem returns_single (h : Binds (P k) st) : From k (AllBind P) (pure [st] : Build _) :=
  .pure (List.forall_mem_singleton.mpr h)

theorem returns_if {c : Prop} [Decidable c] (h : Binds (P k) st) :
    From k (AllBind P) (pure (if c then [st] else []) : Build _) := by
  split
  · exact returns_single h
  · exact returns_none

theorem flatMapM_binds (hP : PassesOn n P Q) {α : Type} {l : List α}
    {f : α → Build (List MatchState)}
    (hf : ∀ a ∈ l, ∀ m, k ≤ m → From m (AllBind P) (f a)) : From k (AllBind P) (l.flatMapM f) :=
  From.flatMapM_all (r := fun k st => Binds (P k) st) (Binds.mono hP) hf

/-- Going on from every state. -/
theorem states_binds (hP : PassesOn n P Q) {sts : List MatchState}
    {f : MatchState → Build (List MatchState)} (h : AllBind P k sts)
    (hf : ∀ m st, k ≤ m → Binds (P m) st → From m (AllBind P) (f st)) :
    From k (AllBind P) (sts.flatMapM f) :=
  flatMapM_binds hP fun st hst m hm => hf m st hm ((h st hst).mono hP hm)

/-! ### One level of a match -/

theorem bind_binds {v : Var} {s : Term} (hs : P k s) (h : Binds (P k) st) :
    AllBind P k (bind v s st) := by
  intro st' hst'
  unfold bind at hst'
  split at hst'
  · cases hst'
  · rename_i hsort
    have hsort : s.sort.subsortOf v.sort := by simpa using hsort
    split at hst'
    · rw [List.mem_singleton.mp hst']
      exact h
    · obtain ⟨σ, hσ, rfl⟩ := Option.map_eq_some_iff.mp (Option.mem_toList.mp hst')
      intro w t ht
      rcases Substitution.of_bind? hσ ht with ⟨rfl, rfl⟩ | ht
      · exact ⟨hs, hsort⟩
      · exact h w t ht

theorem pairs_binds (hP : PassesOn n P Q) (hgo : Keeps n P go) :
    ∀ {es : List (Term × Term)} {sts : List MatchState} {k : Nat}, n ≤ k → (∀ e ∈ es, P k e.2) →
      AllBind P k sts → From k (AllBind P) (pairs go es sts)
  | [], sts, k, _, _, h => by
    rw [pairs]
    exact .pure h
  | (p, s) :: es, [], k, _, _, _ => by
    rw [pairs]
    · exact returns_none
    · simp
  | (p, s) :: es, st :: sts, k, hk, hes, h => by
    obtain ⟨hs, hes⟩ := List.forall_mem_cons.mp hes
    rw [pairs]
    · have hfirst : From k (AllBind P) ((st :: sts).flatMapM (go p s)) :=
        states_binds hP h fun m st hm hst => hgo m p s st (Nat.le_trans hk hm) (hP.mono hm hs) hst
      refine hfirst.bind fun m sts hm hsts => ?_
      exact pairs_binds hP hgo (Nat.le_trans hk hm) (fun e he => hP.mono hm (hes e he)) hsts
    · simp

theorem sequence_binds (hP : PassesOn n P Q) (hgo : Keeps n P go) (pFrame : Option Var)
    {sFrame : Option Var} (hframe : ∀ v ∈ sFrame, Q v) :
    ∀ {ps ss : List Term} {st : MatchState} {k : Nat}, n ≤ k → (∀ s ∈ ss, P k s) →
      Binds (P k) st → From k (AllBind P) (sequence go pFrame sFrame ps ss st)
  | [], ss, st, k, hk, hss, h => by
    rw [sequence.eq_def]
    dsimp only
    split
    · exact (hP.sequence hk hss hframe).bind fun m t hm ht => .pure (bind_binds ht (h.mono hP hm))
    · exact returns_if h
  | p :: ps, ss, st, k, hk, hss, h => by
    rw [sequence.eq_def]
    dsimp only
    split
    · refine .ite (fun _ => ?_) fun _ => ?_
      · exact (hP.sequence hk hss hframe).bind fun m t hm ht =>
          .pure (bind_binds ht (h.mono hP hm))
      · refine flatMapM_binds hP fun ⟨front, back⟩ hsplit m hm => ?_
        rw [← mem_splits hsplit, List.forall_mem_append] at hss
        have hfront : From m P (Term.sequenceFrom front none) :=
          hP.sequence (Nat.le_trans hk hm) (hP.all_mono hm hss.1) fun v hv => by cases hv
        refine hfront.bind fun m' t hm' ht => ?_
        have hm := Nat.le_trans hm hm'
        refine states_binds hP (bind_binds ht (h.mono hP hm)) fun l st hl hst => ?_
        have hl := Nat.le_trans hm hl
        exact sequence_binds hP hgo pFrame hframe (Nat.le_trans hk hl) (hP.all_mono hl hss.2) hst
    · split
      · exact returns_none
      · rename_i s ss
        obtain ⟨hs, hss⟩ := List.forall_mem_cons.mp hss
        refine (hgo k p s st hk hs h).bind fun m sts hm hsts => ?_
        refine states_binds hP hsts fun l st hl hst => ?_
        have hl := Nat.le_trans hm hl
        exact sequence_binds hP hgo pFrame hframe (Nat.le_trans hk hl) (hP.all_mono hl hss) hst

theorem forall_zip {α : Type} {R : Term → Prop} {ps : List α} {ss : List Term} (h : ∀ s ∈ ss, R s) :
    ∀ e ∈ ps.zip ss, R e.2 :=
  fun _ he => h _ (List.of_mem_zip he).2

theorem listMiddle_binds (hP : PassesOn n P Q) (hgo : Keeps n P go) (ops : CollectionOps) :
    ∀ {bases items : List Term} {st : MatchState} {k : Nat}, n ≤ k → (∀ s ∈ items, P k s) →
      Binds (P k) st → From k (AllBind P) (listMiddle go ops bases items st)
  | [], items, st, k, _, _, h => by
    rw [listMiddle]
    exact returns_if h
  | b :: bases, items, st, k, hk, hitems, h => by
    rw [listMiddle]
    split
    · rename_i run base right hb
      refine .ite (fun _ => ?_) fun _ => returns_none
      refine (pairs_binds hP hgo hk (forall_zip hitems) (List.forall_mem_singleton.mpr h)).bind
        fun m sts hm hsts => states_binds hP hsts fun l st hl hst => ?_
      have hl := Nat.le_trans hm hl
      refine listMiddle_binds hP hgo ops (Nat.le_trans hk hl) (hP.all_mono hl ?_) hst
      exact fun s hs => hitems s (List.mem_of_mem_drop hs)
    · refine flatMapM_binds hP fun cut hsplit m hm => ?_
      obtain ⟨front, back⟩ := cut
      have happend : front ++ back = items := by
        split at hsplit
        · cases List.mem_singleton.mp hsplit
          exact List.append_nil _
        · exact mem_splits hsplit
      rw [← happend, List.forall_mem_append] at hitems
      refine (hP.list (Nat.le_trans hk hm) (hP.all_mono hm hitems.1)).bind fun m' t hm' ht => ?_
      have hm := Nat.le_trans hm hm'
      refine (hgo _ b t st (Nat.le_trans hk hm) ht (h.mono hP hm)).bind fun l sts hl hsts => ?_
      have hl := Nat.le_trans hm hl
      refine states_binds hP hsts fun l' st hl' hst => ?_
      have hl := Nat.le_trans hl hl'
      exact listMiddle_binds hP hgo ops (Nat.le_trans hk hl) (hP.all_mono hl hitems.2) hst

theorem list_binds (hP : PassesOn n P Q) (hgo : Keeps n P go) (hk : n ≤ k) (p : ListParts)
    {s : ListParts} (hs : ∀ t ∈ s.left ++ (s.base ++ s.right), P k t) (h : Binds (P k) st) :
    From k (AllBind P) (list go p s st) := by
  simp only [List.forall_mem_append] at hs
  obtain ⟨hleft, hbase, hright⟩ := hs
  unfold list
  refine .ite (fun _ => .ite (fun _ => ?_) fun _ => returns_none) fun _ => ?_
  · refine pairs_binds hP hgo hk ?_ (List.forall_mem_singleton.mpr h)
    simp only [List.forall_mem_append]
    exact ⟨⟨forall_zip hleft, forall_zip hbase⟩, forall_zip hright⟩
  · have hdrop (n : Nat) : ∀ t ∈ s.left.drop n, P k t :=
      fun t ht => hleft t (List.mem_of_mem_drop ht)
    refine .ite (fun _ => returns_none) fun _ => ?_
    refine (pairs_binds hP hgo hk ?_ (List.forall_mem_singleton.mpr h)).bind
      fun m sts hm hsts => states_binds hP hsts fun l st hl hst => ?_
    · exact List.forall_mem_append.mpr ⟨forall_zip hleft, forall_zip (hdrop _)⟩
    · have hl := Nat.le_trans hm hl
      refine listMiddle_binds hP hgo p.ops (Nat.le_trans hk hl) (hP.all_mono hl fun s hs => ?_) hst
      exact hdrop _ s (List.mem_of_mem_take hs)

theorem rest_binds {α : Type} {go : α → Term → MatchState → Build (List MatchState)}
    (hgo : ∀ a s st, P k s → Binds (P k) st → From k (AllBind P) (go a s st)) {bases : List α}
    {remainder : Term} (hr : P k remainder) (h : Binds (P k) st) :
    From k (AllBind P) (rest go bases remainder st) := by
  unfold rest
  split
  · split <;> first | exact returns_single h | exact returns_none
  · exact hgo _ remainder st hr h
  · exact returns_none

theorem mapEntries_binds (hP : PassesOn n P Q) (hgo : Keeps n P go) (hdeeper : Keeps n P deeper)
    (ops : CollectionOps) (pBase : List Term) :
    ∀ {pending unused : List (Term × Term)} {sBase : List Term} {st : MatchState} {k : Nat}, n ≤ k →
      (∀ t ∈ sBase, P k t) → (∀ e ∈ unused, P k e.1 ∧ P k e.2) → Binds (P k) st →
      From k (AllBind P) (mapEntries go deeper ops sBase pBase pending unused st)
  | [], unused, sBase, st, k, hk, hbase, hunused, h => by
    rw [mapEntries]
    refine (hP.map hk hunused hbase).bind fun m r hm hr => ?_
    exact rest_binds (hgo m · · · (Nat.le_trans hk hm)) hr (h.mono hP hm)
  | (key, value) :: pending, unused, sBase, st, k, hk, hbase, hunused, h => by
    rw [mapEntries]
    refine (Term.grows_substitute _ key k).bind fun k₁ key hk₁ _ => ?_
    have hnext : ∀ e ∈ unused, ∀ m st, k ≤ m → Binds (P m) st → From m (AllBind P) (do
        (← go value e.2 st).flatMapM
          (mapEntries go deeper ops sBase pBase pending (SortedList.erase e.1 unused))) := by
      intro e he m st hm h
      refine (hgo m value e.2 st (Nat.le_trans hk hm) (hP.mono hm (hunused e he).2) h).bind
        fun l sts hl hsts => states_binds hP hsts fun l' st hl' hst => ?_
      have hl := Nat.le_trans hm (Nat.le_trans hl hl')
      refine mapEntries_binds hP hgo hdeeper ops pBase (Nat.le_trans hk hl) (hP.all_mono hl hbase)
        (fun e he => ?_) hst
      have he := hunused e (SortedList.mem_of_mem_erase he)
      exact ⟨hP.mono hl he.1, hP.mono hl he.2⟩
    refine .ite (fun _ => flatMapM_binds hP fun e he m hm => ?_) fun _ =>
      flatMapM_binds hP fun e he m hm => ?_
    all_goals have hm := Nat.le_trans hk₁ hm
    · exact hnext e (List.mem_filter.mp he).1 m st hm (h.mono hP hm)
    · refine (hdeeper m key e.1 st (Nat.le_trans hk hm) (hP.mono hm (hunused e he).1)
        (h.mono hP hm)).bind fun l sts hl hsts => ?_
      exact states_binds hP hsts fun l' st hl' hst =>
        hnext e he l' st (Nat.le_trans hm (Nat.le_trans hl hl')) hst

theorem setElements_binds (hP : PassesOn n P Q) (hgo : Keeps n P go) (hdeeper : Keeps n P deeper)
    (ops : CollectionOps) (pBase : List Term) :
    ∀ {pending unused sBase : List Term} {st : MatchState} {k : Nat}, n ≤ k →
      (∀ t ∈ sBase, P k t) → (∀ t ∈ unused, P k t) → Binds (P k) st →
      From k (AllBind P) (setElements go deeper ops sBase pBase pending unused st)
  | [], unused, sBase, st, k, hk, hbase, hunused, h => by
    rw [setElements]
    refine (hP.set hk hunused hbase).bind fun m r hm hr => ?_
    exact rest_binds (hgo m · · · (Nat.le_trans hk hm)) hr (h.mono hP hm)
  | element :: pending, unused, sBase, st, k, hk, hbase, hunused, h => by
    rw [setElements]
    refine (Term.grows_substitute _ element k).bind fun k₁ element hk₁ _ => ?_
    refine flatMapM_binds hP fun s hs m hm => ?_
    have hm := Nat.le_trans hk₁ hm
    have hs := hP.mono hm (hunused s (List.mem_filter.mp hs).1)
    refine (hdeeper m element s st (Nat.le_trans hk hm) hs (h.mono hP hm)).bind
      fun l sts hl hsts => states_binds hP hsts fun l' st hl' hst => ?_
    have hl := Nat.le_trans hm (Nat.le_trans hl hl')
    refine setElements_binds hP hgo hdeeper ops pBase (Nat.le_trans hk hl) (hP.all_mono hl hbase)
      (hP.all_mono hl fun t ht => ?_) hst
    exact hunused t (List.mem_filter.mp ht).1

theorem cells_binds (hP : PassesOn n P Q) (hgo : Keeps n P go) {sFrames : List Var}
    (hframes : ∀ v ∈ sFrames, Q v) (pFrames : List Var) :
    ∀ {pending : List Cell} {unused : List (Nat × Cell)} {st : MatchState} {k : Nat}, n ≤ k →
      (∀ c ∈ unused, P k c.2.content) → Binds (P k) st →
      From k (AllBind P) (cells go sFrames pFrames pending unused st)
  | [], unused, st, k, hk, hunused, h => by
    rw [cells]
    refine (hP.cells hk (fun c hc => ?_) hframes).bind fun m r hm hr =>
      rest_binds (fun v s st hs h => .pure (bind_binds hs h)) hr (h.mono hP hm)
    obtain ⟨d, hd, rfl⟩ := List.mem_map.mp hc
    exact hunused d hd
  | cell :: pending, unused, st, k, hk, hunused, h => by
    rw [cells]
    refine flatMapM_binds hP fun s hs m hm => ?_
    have hs := hP.mono hm (hunused s (List.mem_filter.mp hs).1)
    refine (hgo m _ _ st (Nat.le_trans hk hm) hs (h.mono hP hm)).bind fun l sts hl hsts => ?_
    refine states_binds hP hsts fun l' st hl' hst => ?_
    have hl := Nat.le_trans hm (Nat.le_trans hl hl')
    refine cells_binds hP hgo hframes pFrames (Nat.le_trans hk hl) (fun c hc => ?_) hst
    exact hP.mono hl (hunused c (List.mem_filter.mp hc).1)

theorem branches_binds (hP : PassesOn n P Q) (hgo : Keeps n P go) (hk : n ≤ k)
    (bs : List Term.Branch) {s : Term} (hs : P k s) (h : Binds (P k) st) :
    From k (AllBind P) (branches go bs s st) :=
  flatMapM_binds hP fun _ _ m hm => .ite (fun _ => returns_none) fun _ =>
    hgo m _ s _ (Nat.le_trans hk hm) (hP.mono hm hs) (h.mono hP hm)

theorem sequenceView_passesOn (hP : PassesOn n P Q) {s : Term} (hs : P k s) :
    (∀ t ∈ (sequenceView s).1, P k t) ∧ ∀ v ∈ (sequenceView s).2, Q v := by
  have hself : ∀ t ∈ [s], P k t := List.forall_mem_singleton.mpr hs
  unfold sequenceView
  cases hn : s.node with
  | seq items frame =>
    refine ⟨fun t ht => hP.child hs ?_, fun v hv => hP.frame hs ?_⟩
    · rwa [Term.children, hn]
    · rw [Term.frames, hn]
      exact Option.mem_toList.mpr hv
  | var v =>
    dsimp only
    split
    · refine ⟨List.forall_mem_nil _, ?_⟩
      rintro _ ⟨⟩
      exact hP.var hs hn
    · exact ⟨hself, fun v hv => by cases hv⟩
  | _ => exact ⟨hself, fun v hv => by cases hv⟩

theorem operandsOf?_passesOn (hP : PassesOn n P Q) {ops : CollectionOps} {s : Term}
    {parts : ListParts} (hs : P k s) (h : operandsOf? ops s = some parts) :
    ∀ t ∈ parts.left ++ (parts.base ++ parts.right), P k t := by
  have hself : ∀ t ∈ [s], P k t := List.forall_mem_singleton.mpr hs
  unfold operandsOf? at h
  split at h
  · cases h
  · split at h
    · rename_i hn
      split at h <;> cases h
      intro t ht
      refine hP.child hs ?_
      rwa [Term.children, hn]
    · split at h <;> cases h <;> simp [hs]
    · split at h <;> cases h <;> simp [hs]

/-- One level of a match keeps the property. -/
theorem node_keeps (hP : PassesOn n P Q) (hgo : Keeps n P go) (hdeeper : Keeps n P deeper) :
    Keeps n P (node go deeper) := by
  intro k p s st hk hs h
  have hchild {c : Term} (hc : c ∈ s.node.children) : P k c := hP.child hs hc
  unfold node
  refine .ite (fun _ => returns_if h) fun _ => ?_
  split
  · exact .pure (bind_binds hs h)
  · exact hgo k _ s st hk hs h
  · exact branches_binds hP hgo hk _ hs h
  · rename_i hn
    refine .ite (fun _ => ?_) fun _ => returns_none
    refine pairs_binds hP hgo hk (forall_zip fun t ht => hchild ?_) (List.forall_mem_singleton.mpr h)
    rwa [hn]
  · rename_i hn
    refine .ite (fun _ => ?_) fun _ => returns_none
    refine (hgo k _ _ st hk (hchild (by simp [hn, Node.children])) h).bind fun m sts hm hsts => ?_
    refine states_binds hP hsts fun l st hl hst => ?_
    have hl := Nat.le_trans hm hl
    refine pairs_binds hP hgo (Nat.le_trans hk hl) (forall_zip fun t ht => hP.mono hl (hchild ?_))
      (List.forall_mem_singleton.mpr hst)
    rw [hn]
    exact List.mem_cons_of_mem _ ht
  · obtain ⟨hitems, hframe⟩ := sequenceView_passesOn hP hs
    exact sequence_binds hP hgo _ hframe hk hitems h
  · split
    · rename_i hn
      refine .ite (fun _ => list_binds hP hgo hk _ (fun t ht => hchild ?_) h) fun _ => returns_none
      rwa [hn]
    · dsimp only
      split
      · rename_i hparts
        refine .ite (fun _ => list_binds hP hgo hk _ ?_ h) fun _ => returns_none
        exact operandsOf?_passesOn hP hs hparts
      · exact returns_none
  · rename_i hn
    refine .ite (fun _ => ?_) fun _ => returns_none
    refine mapEntries_binds hP hgo hdeeper _ _ hk (fun t ht => hchild ?_) (fun e he => ?_) h
    · rw [hn]
      exact List.mem_append_right _ ht
    · have hentry : ∀ c ∈ [e.1, e.2], P k c := fun c hc => hchild (by
        rw [hn]
        exact List.mem_append_left _ (List.mem_flatMap.mpr ⟨e, he, hc⟩))
      exact ⟨hentry _ List.mem_cons_self, hentry _ (List.mem_cons_of_mem _ List.mem_cons_self)⟩
  · rename_i hn
    refine .ite (fun _ => ?_) fun _ => returns_none
    refine setElements_binds hP hgo hdeeper _ _ hk (fun t ht => hchild ?_) (fun t ht => hchild ?_) h
    · rw [hn]
      exact List.mem_append_right _ ht
    · rw [hn]
      exact List.mem_append_left _ ht
  · rename_i hn
    refine cells_binds hP hgo (fun v hv => hP.frame hs ?_) _ hk (fun c hc => hchild ?_) h
    · rwa [Term.frames, hn]
    · rw [hn]
      obtain ⟨i, hi, rfl⟩ := List.getElem_of_mem hc
      rw [List.getElem_mapIdx]
      exact List.mem_map_of_mem (List.getElem_mem _)
  · exact returns_none

theorem upTo_keeps (hP : PassesOn n P Q) (hdeeper : Keeps n P deeper) :
    ∀ size, Keeps n P (upTo deeper size)
  | 0 => fun _ _ _ _ _ _ _ => returns_none
  | size + 1 => node_keeps hP (upTo_keeps hP hdeeper size) hdeeper

theorem below_keeps (hP : PassesOn n P Q) : ∀ size, Keeps n P (below size)
  | 0 => fun _ _ _ _ _ _ _ => returns_none
  | size + 1 => fun k p => upTo_keeps hP (below_keeps hP size) p.size k p

end Helpers

end Matching

open Matching

/-- What holds of the subject and passes on holds of every bound term, and every bound term has the
sort of its variable. -/
theorem matchAll_passesOn {n : Nat} {P : Nat → Term → Prop} {Q : Var → Prop} (hP : PassesOn n P Q)
    {p s : Term} (hs : P n s) : From n (fun k σs => ∀ σ ∈ σs, ∀ v t, σ.get? v = some t →
      P k t ∧ t.sort.subsortOf v.sort) (matchAll p s) := by
  have hempty : Binds (P n) {} := fun v t ht => by cases ht
  refine (below_keeps hP s.size n p s {} (Nat.le_refl n) hs hempty).bind fun k sts _ hsts => .pure ?_
  intro σ hσ
  obtain ⟨st, hst, rfl⟩ := List.mem_map.mp hσ
  exact hsts st hst

/-- The builders that a match uses keep terms tidy. -/
theorem Term.tidy_passesOn (n : Nat) : PassesOn n (fun _ => Tidy true) fun _ => True :=
  .of_kept (tidy_kept true) fun ht hc => tidy_child ht (by rwa [sides_true])

end RuleCompiler
