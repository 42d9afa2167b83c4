import RuleCompiler.Proofs.Matching.Bindings
import RuleCompiler.Proofs.Matching.LeftSide
import RuleCompiler.Proofs.RewriteLifting.Sides

/-! # Matches that end

Only a group of cells can clash, over something that is put into it in place of a frame. A match puts bound
terms into keys and elements alone, so where those are first-order no match clashes. -/

namespace RuleCompiler

open Build (Always From)

theorem Build.Always.of_from {α : Type} {x : Build α} {P : α → Prop} (hx : Always x fun _ => True)
    (hP : ∀ n, From n (fun _ => P) x) : Always x P := by
  intro n
  obtain ⟨a, k, hrun, -⟩ := hx n
  exact ⟨a, k, hrun, (hP n a k hrun).2⟩

/-- Whether keys and elements with variables are first-order. -/
def Node.hasPlainKeys : Node Term → Bool
  | .map _ entries _ => entries.all fun e => e.1.isFirstOrder fun _ => true
  | .set _ elements _ => elements.all (Term.isFirstOrder fun _ => true)
  | _ => true

namespace Term
variable {t c : Term}

/-- Whether all nodes that a match looks at have plain keys. -/
def hasPlainKeys : Term → Bool :=
  fold fun t below => match t.node, below with
    | .rewrite .., left :: _ => left
    | n, below => n.hasPlainKeys && below.all id

abbrev HasPlainKeys (t : Term) : Prop := t.hasPlainKeys = true

theorem hasPlainKeys_iff : t.HasPlainKeys ↔ t.node.hasPlainKeys ∧ ∀ c ∈ t.sides false, c.HasPlainKeys := by
  rw [HasPlainKeys, hasPlainKeys, fold_eq, ← hasPlainKeys, sides, children]
  cases t.node with
  | rewrite l r => simp [Node.children, Node.hasPlainKeys]
  | _ => simp

theorem HasPlainKeys.child (h : t.HasPlainKeys) (hr : t.isRewrite = false) (hc : c ∈ t.children) : c.HasPlainKeys := by
  rw [hasPlainKeys_iff, sides_of_not_rewrite hr] at h
  exact h.2 c hc

theorem HasPlainKeys.left {l r : Term} (h : t.HasPlainKeys) (hn : t.node = .rewrite l r) : l.HasPlainKeys := by
  rw [hasPlainKeys_iff] at h
  exact h.2 l (by simp [sides, hn])

theorem HasPlainKeys.of_children (ht : t.node.hasPlainKeys) (hc : ∀ c ∈ t.children, c.HasPlainKeys) : t.HasPlainKeys := by
  rw [hasPlainKeys_iff]
  exact ⟨ht, fun c hm => hc c (sides_subset hm)⟩

theorem isFirstOrder_of_isGround (h : t.isGround) : t.isFirstOrder fun _ => true := by
  induction t using Term.induction with
  | h t ih =>
    rw [isFirstOrder_eq]
    split
    · rfl
    · rfl
    · rename_i l args s hn
      have hchildren : t.children = args := by rw [children, hn]; rfl
      exact List.all_eq_true.mpr fun c hc => ih c (hchildren ▸ hc) (isGround_child h (hchildren ▸ hc))
    · rw [h]
      rfl

theorem hasPlainKeys_of_isGround (h : t.isGround) : t.HasPlainKeys := by
  induction t using Term.induction with
  | h t ih =>
    refine .of_children ?_ fun c hc => ih c hc (isGround_child h hc)
    have hfirst : ∀ c ∈ t.children, c.isFirstOrder fun _ => true :=
      fun c hc => isFirstOrder_of_isGround (isGround_child h hc)
    rw [children] at hfirst
    unfold Node.hasPlainKeys
    split
    · rename_i hn
      rw [hn] at hfirst
      refine List.all_eq_true.mpr fun e he => hfirst e.1 (List.mem_append_left _ ?_)
      exact List.mem_flatMap.mpr ⟨e, he, List.mem_cons_self⟩
    · rename_i hn
      rw [hn] at hfirst
      exact List.all_eq_true.mpr fun c hc => hfirst c (List.mem_append_left _ hc)
    · rfl

theorem isCompared_of_children {t : Term} (hvar : t.isVar = false) (hr : t.isRewrite = false)
    (hd : t.isDisjunction = false) (hc : ∀ c ∈ t.children, Matching.isCompared c) (hf : t.frames = []) :
    Matching.isCompared t := by
  have hpart {c : Term} (h : c ∈ t.children) : (c.isGround ∧ c.hasRewrite = false) ∧ c.hasDisjunction = false := by
    simpa only [Matching.isCompared, Bool.and_eq_true, Bool.not_eq_true'] using hc c h
  simp only [Matching.isCompared, Bool.and_eq_true, Bool.not_eq_true']
  refine ⟨⟨isGround_iff.mpr ⟨hvar, fun c h => (hpart h).1.1, hf⟩, ?_⟩, ?_⟩
  · exact hasRewrite_eq_false_iff.mpr ⟨hr, fun c h => (hpart h).1.2⟩
  · rw [hasDisjunction, anyNode_eq, hd, frameTerms, hf, Bool.false_or, List.map_nil, List.any_nil, Bool.or_false,
      List.any_eq_false]
    exact fun c h => by rw [← hasDisjunction, (hpart h).2]; exact Bool.false_ne_true

/-- Builders keep terms such that a match only compares with them. -/
theorem kept_isCompared : Kept 0 (fun _ t => Matching.isCompared t) fun _ => False where
  mono _ h := h
  part h _ hc := Matching.isCompared_child h hc
  frame h hv := by
    rw [(isGround_iff.mp (Matching.isGround_of_isCompared h)).2.2] at hv
    cases hv
  var h hn := not_isVar_of_isGround (Matching.isGround_of_isCompared h) hn
  newVar _ h := h.elim
  new {k m} _ hm hc hf := by
    refine .of_returns ((returns_new m).mono fun t ht => ?_) (grows_new m k)
    refine isCompared_of_children ?_ ?_ ?_ (by rwa [children, ht]) ?_
    · rw [isVar, ht]
      cases m <;> first | rfl | cases hm
    · rw [isRewrite, ht]
      cases m <;> first | rfl | cases hm
    · rw [isDisjunction, ht]
      cases m <;> first | rfl | cases hm
    · rw [frames, ht]
      exact List.eq_nil_iff_forall_not_mem.mpr hf

end Term

namespace Matching
variable {go deeper : Matcher} {st : MatchState} {p s : Term}

/-- Only compared terms of the right sorts are bound in any of the states. -/
abbrev AllSettled (sts : List MatchState) : Prop := ∀ st ∈ sts, Settled st.substitution

/-- The matcher never clashes, and goes on binding compared terms. -/
def Ends (go : Matcher) : Prop :=
  ∀ p s st, p.HasPlainKeys → isCompared s → Settled st.substitution → Always (go p s st) AllSettled

/-- What the bindings make of a first-order term has plain keys. -/
theorem ends_apply {σ : Substitution} (hσ : Settled σ) (hp : p.HasPlainKeys)
    (hfo : p.isFirstOrder fun _ => true) : Always (σ.apply p) Term.HasPlainKeys := by
  induction p using Term.induction with
  | h p ih =>
    by_cases hground : p.isGround
    · rw [Substitution.apply, Term.substitute_of_isGround hground]
      exact .pure hp
    rw [Term.isFirstOrder_eq] at hfo
    split at hfo
    · rename_i v hn
      rw [Substitution.apply, Term.substitute_of_var hn]
      cases hv : σ.get? v with
      | none => exact .pure hp
      | some u => exact .pure (Term.hasPlainKeys_of_isGround (isGround_of_isCompared (hσ v u hv).1))
    · rename_i hn
      refine absurd ?_ hground
      rw [Term.isGround_iff, Term.isVar, Term.children, Term.frames, hn]
      exact ⟨rfl, List.forall_mem_nil _, rfl⟩
    · rename_i l args s hn
      have hchildren : p.children = args := by rw [Term.children, hn]; rfl
      rw [Substitution.apply, Term.substitute_eq (by rw [Term.isVar, hn]; rfl)]
      refine Term.always_update (S := fun _ => Term.HasPlainKeys) (by rw [Term.frames, hn]; rfl)
        (fun c hc => ih c hc (hp.child (by rw [Term.isRewrite, hn]) hc) (List.all_eq_true.mp hfo c (hchildren ▸ hc)))
        hp fun cs hcs => ?_
      rw [Term.rebuild_app hn]
      refine (Term.always_new _).mono fun u hu v hv => ?_
      rw [hu] at hv
      refine .of_children (by rw [hv]; rfl) fun c hc => ?_
      rw [Term.children, hv] at hc
      obtain ⟨d, -, hd⟩ := PairedLists.exists_mem hcs.flip hc
      exact hd
    · exact absurd ((Bool.and_eq_true _ _).mp hfo).1 hground

/-! ### One level of a match -/

theorem passesOn_isCompared : PassesOn 0 (fun _ t => isCompared t) fun _ => False :=
  .of_kept Term.kept_isCompared isCompared_child

theorem always_none : Always (pure [] : Build (List MatchState)) AllSettled := .pure (List.forall_mem_nil _)

theorem always_single (h : Settled st.substitution) : Always (pure [st] : Build (List MatchState)) AllSettled :=
  .pure (List.forall_mem_singleton.mpr h)

theorem always_flatMapM {α : Type} {l : List α} {f : α → Build (List MatchState)}
    (h : ∀ a ∈ l, Always (f a) AllSettled) : Always (l.flatMapM f) AllSettled := by
  refine (Always.flatMapM (S := fun _ => AllSettled) h).mono ?_
  rintro _ ⟨parts, hparts, rfl⟩ st hst
  obtain ⟨sts, hsts, hst⟩ := List.mem_flatten.mp hst
  obtain ⟨-, -, h⟩ := PairedLists.exists_mem hparts.flip hsts
  exact h st hst

theorem bind_settled (v : Var) (hs : isCompared s) (h : Settled st.substitution) : AllSettled (bind v s st) :=
  bind_binds (P := fun _ t => isCompared t) (k := 0) hs h

theorem ends_pairs (hgo : Ends go) : ∀ {es : List (Term × Term)} {sts : List MatchState},
    (∀ e ∈ es, e.1.HasPlainKeys ∧ isCompared e.2) → AllSettled sts → Always (pairs go es sts) AllSettled
  | [], sts, _, h => by
    rw [pairs]
    exact .pure h
  | (p, s) :: es, [], _, _ => by
    rw [pairs]
    · exact always_none
    · simp
  | (p, s) :: es, st :: sts, hes, h => by
    obtain ⟨⟨hp, hs⟩, hes⟩ := List.forall_mem_cons.mp hes
    rw [pairs]
    · refine (always_flatMapM fun st hst => hgo p s st hp hs (h st hst)).bind fun sts hsts => ?_
      exact ends_pairs hgo hes hsts
    · simp

theorem always_sequenceFrom {ts : List Term} (h : ∀ t ∈ ts, isCompared t) :
    Always (Term.sequenceFrom ts none) (isCompared ·) := by
  refine Always.of_from ?_ fun n => passesOn_isCompared.sequence (Nat.zero_le n) h fun v hv => by cases hv
  exact (Always.foldlM_ends SequenceParts.ends_add _ _).bind fun p _ => p.ends_build

theorem ends_sequence (hgo : Ends go) (pFrame : Option Var) : ∀ {ps ss : List Term} {st : MatchState},
    (∀ p ∈ ps, p.HasPlainKeys) → (∀ s ∈ ss, isCompared s) → Settled st.substitution →
      Always (sequence go pFrame none ps ss st) AllSettled
  | [], ss, st, _, hss, h => by
    rw [sequence.eq_def]
    dsimp only
    split
    · exact (always_sequenceFrom hss).bind fun t ht => .pure (bind_settled _ ht h)
    · split
      · exact always_single h
      · exact always_none
  | p :: ps, ss, st, hps, hss, h => by
    obtain ⟨hp, hps⟩ := List.forall_mem_cons.mp hps
    rw [sequence.eq_def]
    dsimp only
    split
    · split
      · exact (always_sequenceFrom hss).bind fun t ht => .pure (bind_settled _ ht h)
      · refine always_flatMapM fun cut hsplit => ?_
        obtain ⟨front, back⟩ := cut
        rw [← mem_splits hsplit, List.forall_mem_append] at hss
        refine (always_sequenceFrom hss.1).bind fun t ht => always_flatMapM fun st hst => ?_
        exact ends_sequence hgo pFrame hps hss.2 (bind_settled _ ht h st hst)
    · split
      · exact always_none
      · obtain ⟨hs, hss⟩ := List.forall_mem_cons.mp hss
        refine (hgo p _ st hp hs h).bind fun sts hsts => always_flatMapM fun st hst => ?_
        exact ends_sequence hgo pFrame hps hss (hsts st hst)

theorem always_listOf (ops : CollectionOps) {ts : List Term} (h : ∀ t ∈ ts, isCompared t) :
    Always (listOf ops ts) (isCompared ·) :=
  .of_from (ListParts.ends_build _) fun n => passesOn_isCompared.list (Nat.zero_le n) h

theorem forall_zip_pair {ps ss : List Term} (hps : ∀ p ∈ ps, p.HasPlainKeys) (hss : ∀ s ∈ ss, isCompared s) :
    ∀ e ∈ ps.zip ss, e.1.HasPlainKeys ∧ isCompared e.2 :=
  fun _ he => ⟨hps _ (List.of_mem_zip he).1, hss _ (List.of_mem_zip he).2⟩

theorem ends_listMiddle (hgo : Ends go) (ops : CollectionOps) :
    ∀ {bases items : List Term} {st : MatchState}, (∀ b ∈ bases, b.HasPlainKeys) → (∀ t ∈ items, isCompared t) →
      Settled st.substitution → Always (listMiddle go ops bases items st) AllSettled
  | [], items, st, _, _, h => by
    rw [listMiddle]
    split
    · exact always_single h
    · exact always_none
  | b :: bases, items, st, hbases, hitems, h => by
    obtain ⟨hb, hbases⟩ := List.forall_mem_cons.mp hbases
    rw [listMiddle]
    split
    · rename_i run base right hn
      split
      · have hrun : ∀ p ∈ run, p.HasPlainKeys := fun p hp => hb.child (by rw [Term.isRewrite, hn]) (by
          rw [Term.children, hn]
          exact List.mem_append_left _ hp)
        refine (ends_pairs hgo (forall_zip_pair hrun hitems) (List.forall_mem_singleton.mpr h)).bind
          fun sts hsts => always_flatMapM fun st hst => ?_
        exact ends_listMiddle hgo ops hbases (fun t ht => hitems t (List.mem_of_mem_drop ht)) (hsts st hst)
      · exact always_none
    · refine always_flatMapM fun cut hsplit => ?_
      obtain ⟨front, back⟩ := cut
      have happend : front ++ back = items := by
        split at hsplit
        · cases List.mem_singleton.mp hsplit
          exact List.append_nil _
        · exact mem_splits hsplit
      rw [← happend, List.forall_mem_append] at hitems
      refine (always_listOf ops hitems.1).bind fun t ht => ?_
      refine (hgo b t st hb ht h).bind fun sts hsts => always_flatMapM fun st hst => ?_
      exact ends_listMiddle hgo ops hbases hitems.2 (hsts st hst)

theorem ends_list (hgo : Ends go) {p s : ListParts}
    (hp : ∀ t ∈ p.left ++ (p.base ++ p.right), t.HasPlainKeys)
    (hs : ∀ t ∈ s.left ++ (s.base ++ s.right), isCompared t) (h : Settled st.substitution) :
    Always (list go p s st) AllSettled := by
  simp only [List.forall_mem_append] at hp hs
  obtain ⟨hleft, hbase, hright⟩ := hp
  obtain ⟨hsleft, hsbase, hsright⟩ := hs
  have hst : AllSettled [st] := List.forall_mem_singleton.mpr h
  have hdrop (n : Nat) : ∀ t ∈ s.left.drop n, isCompared t := fun t ht => hsleft t (List.mem_of_mem_drop ht)
  unfold list
  dsimp only
  split
  · split
    · refine ends_pairs hgo ?_ hst
      simp only [List.forall_mem_append]
      exact ⟨⟨forall_zip_pair hleft hsleft, forall_zip_pair hbase hsbase⟩, forall_zip_pair hright hsright⟩
    · exact always_none
  · split
    · exact always_none
    · refine (ends_pairs hgo ?_ hst).bind fun sts hsts => always_flatMapM fun st hst => ?_
      · exact List.forall_mem_append.mpr ⟨forall_zip_pair hleft hsleft, forall_zip_pair hright (hdrop _)⟩
      · exact ends_listMiddle hgo p.ops hbase (fun t ht => hdrop _ t (List.mem_of_mem_take ht)) (hsts st hst)

theorem ends_rest {α : Type} {go : α → Term → MatchState → Build (List MatchState)} {bases : List α}
    (hgo : ∀ a ∈ bases, Always (go a s st) AllSettled) (h : Settled st.substitution) :
    Always (rest go bases s st) AllSettled := by
  unfold rest
  split
  · split <;> first | exact always_single h | exact always_none
  · exact hgo _ List.mem_cons_self
  · exact always_none

theorem ends_mapEntries (hgo : Ends go) (hdeeper : Ends deeper) (ops : CollectionOps) {sBase pBase : List Term}
    (hsBase : ∀ t ∈ sBase, isCompared t) (hpBase : ∀ b ∈ pBase, b.HasPlainKeys) :
    ∀ {pending unused : List (Term × Term)} {st : MatchState},
      (∀ e ∈ pending, e.1.HasPlainKeys ∧ e.2.HasPlainKeys ∧ e.1.isFirstOrder fun _ => true) →
      (∀ e ∈ unused, isCompared e.1 ∧ isCompared e.2) → Settled st.substitution →
      Always (mapEntries go deeper ops sBase pBase pending unused st) AllSettled
  | [], unused, st, _, hunused, h => by
    have hrest : Always (sBase.foldl MapParts.concat { ops, entries := unused }).build (isCompared ·) :=
      .of_from (MapParts.ends_build _) fun n => passesOn_isCompared.map (Nat.zero_le n) hunused hsBase
    rw [mapEntries]
    exact hrest.bind fun r hr => ends_rest (fun b hb => hgo b r st (hpBase b hb) hr h) h
  | (key, value) :: pending, unused, st, hpending, hunused, h => by
    obtain ⟨⟨hkey, hvalue, hfo⟩, hpending⟩ := List.forall_mem_cons.mp hpending
    have hnext : ∀ e ∈ unused, ∀ st, Settled st.substitution → Always (do
        (← go value e.2 st).flatMapM
          (mapEntries go deeper ops sBase pBase pending (SortedList.erase e.1 unused))) AllSettled := by
      intro e he st h
      refine (hgo value e.2 st hvalue (hunused e he).2 h).bind fun sts hsts => always_flatMapM fun st hst => ?_
      refine ends_mapEntries hgo hdeeper ops hsBase hpBase hpending (fun e he => ?_) (hsts st hst)
      exact hunused e (SortedList.mem_of_mem_erase he)
    rw [mapEntries]
    refine (ends_apply h hkey hfo).bind fun key hkey => ?_
    split
    · exact always_flatMapM fun e he => hnext e (List.mem_filter.mp he).1 st h
    · refine always_flatMapM fun e he => ?_
      refine (hdeeper key e.1 st hkey (hunused e he).1 h).bind fun sts hsts => always_flatMapM fun st hst => ?_
      exact hnext e he st (hsts st hst)

theorem ends_setElements (hgo : Ends go) (hdeeper : Ends deeper) (ops : CollectionOps) {sBase pBase : List Term}
    (hsBase : ∀ t ∈ sBase, isCompared t) (hpBase : ∀ b ∈ pBase, b.HasPlainKeys) :
    ∀ {pending unused : List Term} {st : MatchState},
      (∀ e ∈ pending, e.HasPlainKeys ∧ e.isFirstOrder fun _ => true) → (∀ t ∈ unused, isCompared t) →
      Settled st.substitution → Always (setElements go deeper ops sBase pBase pending unused st) AllSettled
  | [], unused, st, _, hunused, h => by
    have hrest : Always (sBase.foldl SetParts.concat { ops, elements := unused }).build (isCompared ·) :=
      .of_from (SetParts.ends_build _) fun n => passesOn_isCompared.set (Nat.zero_le n) hunused hsBase
    rw [setElements]
    exact hrest.bind fun r hr => ends_rest (fun b hb => hgo b r st (hpBase b hb) hr h) h
  | element :: pending, unused, st, hpending, hunused, h => by
    obtain ⟨⟨helement, hfo⟩, hpending⟩ := List.forall_mem_cons.mp hpending
    rw [setElements]
    refine (ends_apply h helement hfo).bind fun element helement => always_flatMapM fun s hs => ?_
    refine (hdeeper element s st helement (hunused s (List.mem_filter.mp hs).1) h).bind
      fun sts hsts => always_flatMapM fun st hst => ?_
    refine ends_setElements hgo hdeeper ops hsBase hpBase hpending (fun t ht => ?_) (hsts st hst)
    exact hunused t (List.mem_filter.mp ht).1

theorem ends_cells (hgo : Ends go) (pFrames : List Var) :
    ∀ {pending : List Cell} {unused : List (Nat × Cell)} {st : MatchState},
      (∀ c ∈ pending, c.content.HasPlainKeys) → (∀ u ∈ unused, isCompared u.2.content) →
      Settled st.substitution → Always (cells go [] pFrames pending unused st) AllSettled
  | [], unused, st, _, hunused, h => by
    have hrest : Always (CellParts.build ⟨unused.map (·.2), []⟩) (isCompared ·) := by
      refine .of_from (CellParts.ends_build _) fun n => passesOn_isCompared.cells (Nat.zero_le n) (fun c hc => ?_)
        (List.forall_mem_nil _)
      obtain ⟨u, hu, rfl⟩ := List.mem_map.mp hc
      exact hunused u hu
    rw [cells]
    exact hrest.bind fun r hr => ends_rest (fun v _ => .pure (bind_settled v hr h)) h
  | cell :: pending, unused, st, hpending, hunused, h => by
    obtain ⟨hcell, hpending⟩ := List.forall_mem_cons.mp hpending
    rw [cells]
    refine always_flatMapM fun u hu => ?_
    refine (hgo _ _ st hcell (hunused u (List.mem_filter.mp hu).1) h).bind
      fun sts hsts => always_flatMapM fun st hst => ?_
    refine ends_cells hgo pFrames hpending (fun w hw => ?_) (hsts st hst)
    exact hunused w (List.mem_filter.mp hw).1

/-- One level of a match ends where the levels below do. -/
theorem ends_node (hgo : Ends go) (hdeeper : Ends deeper) : Ends (node go deeper) := by
  intro p s st hp hs h
  have hst : AllSettled [st] := List.forall_mem_singleton.mpr h
  obtain ⟨hkeys, hpart⟩ := Term.hasPlainKeys_iff.mp hp
  have hpart' {c : Term} (hc : c ∈ s.node.children) : isCompared c := isCompared_child hs hc
  unfold node
  split
  · split
    · exact always_single h
    · exact always_none
  split
  · exact .pure (bind_settled _ hs h)
  · rename_i hn
    exact hgo _ s st (hp.left hn) hs h
  · rename_i hn
    simp only [Term.sides, Term.children, hn] at hpart
    refine always_flatMapM fun b hb => ?_
    have hbranch (live : RuleSet) : Always (if live.isEmpty then pure [] else
        go b.1 s { st with rules := some live }) AllSettled := by
      split
      · exact always_none
      · exact hgo b.1 s _ (hpart _ (List.mem_map_of_mem (mem_candidateBranches hb))) hs h
    exact hbranch _
  · rename_i hn hn'
    simp only [Term.sides, Term.children, hn] at hpart
    rw [hn'] at hpart'
    split
    · exact ends_pairs hgo (forall_zip_pair hpart fun c hc => hpart' hc) hst
    · exact always_none
  · rename_i hn hn'
    simp only [Term.sides, Term.children, hn] at hpart
    rw [hn'] at hpart'
    split
    · refine (hgo _ _ st (hpart _ List.mem_cons_self) (hpart' List.mem_cons_self) h).bind
        fun sts hsts => always_flatMapM fun st hst => ?_
      exact ends_pairs hgo (forall_zip_pair (fun c hc => hpart c (List.mem_cons_of_mem _ hc)) fun c hc =>
        hpart' (List.mem_cons_of_mem _ hc)) (List.forall_mem_singleton.mpr (hsts st hst))
    · exact always_none
  · rename_i hn
    simp only [Term.sides, Term.children, hn] at hpart
    obtain ⟨hitems, hframe⟩ := sequenceView_passesOn passesOn_isCompared (k := 0) hs
    have hnone : (sequenceView s).2 = none := Option.eq_none_iff_forall_not_mem.mpr hframe
    dsimp only
    rw [hnone]
    exact ends_sequence hgo _ hpart hitems h
  · rename_i ops left base right hn
    simp only [Term.sides, Term.children, hn] at hpart
    have hview (parts : ListParts) (hparts : ∀ t ∈ parts.left ++ (parts.base ++ parts.right), isCompared t) :
        Always (if parts.ops = ops then list go { ops, left, base, right } parts st else pure []) AllSettled := by
      split
      · exact ends_list hgo hpart hparts h
      · exact always_none
    split
    · rename_i hn'
      exact hview _ fun t ht => hpart' (by rwa [hn'])
    · dsimp only
      split
      · rename_i hparts
        exact hview _ (operandsOf?_passesOn passesOn_isCompared (k := 0) hs hparts)
      · exact always_none
  · rename_i ops es base ops' es' base' hn hn'
    simp only [Term.sides, Term.children, hn] at hpart
    rw [hn] at hkeys
    rw [hn'] at hpart'
    split
    · have hps : MapParts.Holds Term.HasPlainKeys ⟨ops, es, base⟩ := MapParts.holds_iff.mpr hpart
      have hss : MapParts.Holds (isCompared ·) ⟨ops', es', base'⟩ := MapParts.holds_iff.mpr fun c => hpart'
      refine ends_mapEntries hgo hdeeper _ hss.base hps.base (fun e he => ⟨hps.keys e he, hps.values e he, ?_⟩)
        (fun e he => ⟨hss.keys e he, hss.values e he⟩) h
      exact List.all_eq_true.mp hkeys e he
    · exact always_none
  · rename_i hn hn'
    simp only [Term.sides, Term.children, hn] at hpart
    rw [hn] at hkeys
    rw [hn'] at hpart'
    split
    · refine ends_setElements hgo hdeeper _ (fun t ht => hpart' (List.mem_append_right _ ht))
        (fun t ht => hpart t (List.mem_append_right _ ht)) (fun e he => ⟨hpart e (List.mem_append_left _ he), ?_⟩)
        (fun e he => hpart' (List.mem_append_left _ he)) h
      exact List.all_eq_true.mp hkeys e he
    · exact always_none
  · rename_i cs frames cs' frames' hn hn'
    have hframes : frames' = [] := by
      have hframes := (Term.isGround_iff.mp (isGround_of_isCompared hs)).2.2
      rwa [Term.frames, hn'] at hframes
    simp only [Term.sides, Term.children, hn] at hpart
    rw [hn'] at hpart'
    subst hframes
    refine ends_cells hgo frames (fun c hc => hpart _ (List.mem_map_of_mem hc)) (fun u hu => hpart' ?_) h
    obtain ⟨i, hi, rfl⟩ := List.getElem_of_mem hu
    rw [List.getElem_mapIdx]
    exact List.mem_map_of_mem (List.getElem_mem _)
  · exact always_none

theorem ends_upTo (hdeeper : Ends deeper) : ∀ size, Ends (upTo deeper size)
  | 0 => fun _ _ _ _ _ _ => always_none
  | size + 1 => ends_node (ends_upTo hdeeper size) hdeeper

theorem ends_below : ∀ size, Ends (below size)
  | 0 => fun _ _ _ _ _ _ => always_none
  | size + 1 => fun p => ends_upTo (ends_below size) p.size p

/-- A match of a compared subject never clashes. -/
theorem ends_matchFrom (hp : p.HasPlainKeys) (hs : isCompared s) (h : Settled st.substitution) :
    Always (matchFrom p s st) AllSettled :=
  ends_below s.size p s st hp hs h

theorem ends_matchAll (hp : p.HasPlainKeys) (hs : isCompared s) :
    Always (matchAll p s) fun σs => ∀ σ ∈ σs, Settled σ := by
  have hempty : Settled ({} : MatchState).substitution := fun v t ht => by cases ht
  refine (ends_matchFrom hp hs hempty).bind fun sts hsts => .pure fun σ hσ => ?_
  obtain ⟨st, hst, rfl⟩ := List.mem_map.mp hσ
  exact hsts st hst

end Matching

end RuleCompiler
