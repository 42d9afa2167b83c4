import RuleCompiler.Proofs.Coupling.Walk
import RuleCompiler.Proofs.Matching.Determinacy

/-! # Two runs of a match

Two runs of a match on related patterns and subjects find related bindings, and they make as many nodes. -/

namespace RuleCompiler

/-- The same rules are possible, and the same variables are bound to related terms. -/
structure MatchState.Coupled (C : Coupling) (n : Nat) (st st' : MatchState) : Prop where
  substitution : st.substitution.Coupled C n st'.substitution
  rules : st.rules = st'.rules

namespace Matching
variable {C : Coupling} {n m : Nat} {go go' deeper deeper' : Matcher} {st st' : MatchState} {p q s s' : Term}

/-- States that are coupled, one by one. -/
abbrev States (C : Coupling) (n : Nat) (sts sts' : List MatchState) : Prop :=
  List.Forall₂ (MatchState.Coupled C n) sts sts'

/-- Pairs of related terms. -/
abbrev RelPair (C : Coupling) (n : Nat) (e e' : Term × Term) : Prop := C.Rel n e.1 e'.1 ∧ C.Rel n e.2 e'.2

abbrev Pairs (C : Coupling) (n : Nat) (es es' : List (Term × Term)) : Prop := List.Forall₂ (RelPair C n) es es'

/-- Two matchers find coupled states. -/
def Coupled (C : Coupling) (go go' : Matcher) : Prop :=
  ∀ {n p q s s' st st'}, C.Rel n p q → C.Rel n s s' → MatchState.Coupled C n st st' →
    C.Runs n (States C) (go p s st) (go' q s' st')

theorem coupled_mono (hm : n ≤ m) (h : MatchState.Coupled C n st st') : MatchState.Coupled C m st st' :=
  ⟨h.substitution.mono hm, h.rules⟩

theorem RelPair.mono {e e' : Term × Term} (hm : n ≤ m) (h : RelPair C n e e') : RelPair C m e e' :=
  ⟨C.rel_mono hm h.1, C.rel_mono hm h.2⟩

theorem Pairs.mono {es es' : List (Term × Term)} (hm : n ≤ m) (h : Pairs C n es es') : Pairs C m es es' :=
  h.imp fun _ _ => RelPair.mono hm

theorem coupled_none : C.Runs n (States C) (pure []) (pure []) := C.pure .nil

theorem coupled_single (h : MatchState.Coupled C n st st') : C.Runs n (States C) (pure [st]) (pure [st']) :=
  C.pure (.cons h .nil)

theorem coupled_flatMapM {γ δ : Type} {T : Nat → γ → δ → Prop} (hT : ∀ {k l c d}, k ≤ l → T k c d → T l c d)
    {f : γ → Build (List MatchState)} {g : δ → Build (List MatchState)} {cs : List γ} {ds : List δ}
    (h : List.Forall₂ (T n) cs ds) (hstep : ∀ k c d, n ≤ k → T k c d → C.Runs k (States C) (f c) (g d)) :
    C.Runs n (States C) (cs.flatMapM f) (ds.flatMapM g) := by
  suffices hall : ∀ k, n ≤ k → C.Runs k (States C) (cs.flatMapM f) (ds.flatMapM g) from hall n (Nat.le_refl n)
  induction h with
  | nil =>
    intro k _
    rw [List.flatMapM_nil, List.flatMapM_nil]
    exact C.pure .nil
  | cons hcd _ ih =>
    intro k hk
    rw [List.flatMapM_cons, List.flatMapM_cons]
    refine C.bind (hstep k _ _ hk (hT hk hcd)) fun l as bs hl has => ?_
    refine C.bind (ih l (by omega)) fun i as' bs' hi has' => C.pure ?_
    exact List.rel_append (has.imp fun _ _ => coupled_mono hi) has'

/-- The match goes on from every state. -/
theorem coupled_states {sts sts' : List MatchState} {f g : MatchState → Build (List MatchState)}
    (h : States C n sts sts')
    (hstep : ∀ k st st', n ≤ k → MatchState.Coupled C k st st' → C.Runs k (States C) (f st) (g st')) :
    C.Runs n (States C) (sts.flatMapM f) (sts'.flatMapM g) :=
  coupled_flatMapM (T := MatchState.Coupled C) coupled_mono h hstep

/-! ### Parts of a match -/

theorem bind_coupled (v : Var) (hs : C.Rel n s s') (h : MatchState.Coupled C n st st') :
    States C n (bind v s st) (bind v s' st') := by
  unfold bind
  rw [Term.sort_congr (C.beq hs)]
  split
  · exact .nil
  split
  · exact .cons h .nil
  · have hbind := h.substitution.bind? v hs
    generalize st.substitution.bind? v s = o, st'.substitution.bind? v s' = o' at hbind
    cases hbind with
    | none => exact .nil
    | some hσ => exact .cons ⟨hσ, h.rules⟩ .nil

theorem relPair_zip {ps qs ss ss' : List Term} (hps : C.RelAll n ps qs) (hss : C.RelAll n ss ss') :
    Pairs C n (ps.zip ss) (qs.zip ss') := by
  induction hps generalizing ss ss' with
  | nil => exact .nil
  | cons hp _ ih =>
    cases hss with
    | nil => exact .nil
    | cons hs hss => exact .cons ⟨hp, hs⟩ (ih hss)

theorem coupled_pairs (hgo : Coupled C go go') {es es' : List (Term × Term)} (hes : Pairs C n es es') :
    ∀ {m : Nat} {sts sts' : List MatchState}, n ≤ m → States C m sts sts' →
      C.Runs m (States C) (pairs go es sts) (pairs go' es' sts') := by
  induction hes with
  | nil =>
    intro m sts sts' _ h
    rw [pairs, pairs]
    exact C.pure h
  | @cons e e' es es' he _ ih =>
    intro m sts sts' hm h
    cases h with
    | nil =>
      rw [pairs, pairs]
      · exact coupled_none
      · simp
      · simp
    | cons h hsts =>
      rw [pairs, pairs]
      · refine C.bind (coupled_states (.cons h hsts) fun k st st' hk hst => ?_) fun k _ _ hk => ih (by omega)
        exact hgo (C.rel_mono (by omega) he.1) (C.rel_mono (by omega) he.2) hst
      · simp
      · simp

theorem coupled_sequenceFrom {ss ss' : List Term} (h : C.RelAll n ss ss') (frame : Option Var) :
    C.Runs n C.Rel (Term.sequenceFrom ss frame) (Term.sequenceFrom ss' frame) := by
  have hframe : C.Runs n C.RelAll (frame.toList.mapM Term.var) (frame.toList.mapM Term.var) :=
    RuleCompiler.Coupled.mapM (m := Build) (R := C.Rel) (T := fun _ => Eq) C.rel_mono (fun _ h => h)
      (List.forall₂_same.mpr fun _ _ => rfl) fun k _ v _ w hvw => hvw ▸ Pairing.new_var v
  exact C.bind hframe fun k fs gs hk hfs => Term.runs_sequence (List.rel_append (Pairing.RelAll.mono hk h) hfs)

/-- Cuts of related lists. -/
abbrev Cuts (C : Coupling) (n : Nat) (c c' : List Term × List Term) : Prop :=
  C.RelAll n c.1 c'.1 ∧ C.RelAll n c.2 c'.2

theorem Cuts.mono {c c' : List Term × List Term} (hm : n ≤ m) (h : Cuts C n c c') : Cuts C m c c' :=
  ⟨Pairing.RelAll.mono hm h.1, Pairing.RelAll.mono hm h.2⟩

theorem coupled_splits {ss ss' : List Term} (h : C.RelAll n ss ss') :
    List.Forall₂ (Cuts C n) (splits ss) (splits ss') := by
  unfold splits
  rw [h.length_eq, List.forall₂_map_left_iff, List.forall₂_map_right_iff]
  refine List.forall₂_same.mpr fun n _ => ?_
  rw [List.splitAt_eq, List.splitAt_eq]
  exact ⟨List.forall₂_take n h, List.forall₂_drop n h⟩

theorem coupled_sequence (hgo : Coupled C go go') (pFrame sFrame : Option Var) :
    ∀ {ps qs ss ss' : List Term} {st st' : MatchState} {n : Nat}, C.RelAll n ps qs → C.RelAll n ss ss' →
      MatchState.Coupled C n st st' →
        C.Runs n (States C) (sequence go pFrame sFrame ps ss st) (sequence go' pFrame sFrame qs ss' st')
  | _, _, ss, ss', st, st', n, .nil, hss, h => by
    rw [sequence.eq_def, sequence.eq_def]
    dsimp only
    cases pFrame with
    | some f =>
      refine C.bind (coupled_sequenceFrom hss sFrame) fun k t u hk htu => C.pure ?_
      exact bind_coupled f htu (coupled_mono hk h)
    | none =>
      dsimp only
      rw [PairedLists.isEmpty_eq hss]
      split
      · exact coupled_single h
      · exact coupled_none
  | p :: ps, q :: qs, ss, ss', st, st', n, .cons hp hps, hss, h => by
    rw [sequence.eq_def, sequence.eq_def go' pFrame sFrame (q :: qs) ss']
    dsimp only
    rw [Term.segment?_congr (C.beq hp), PairedLists.isEmpty_eq hps]
    split
    · rename_i v _
      refine Pairing.ite (fun _ => ?_) fun _ => ?_
      · refine C.bind (coupled_sequenceFrom hss sFrame) fun k t u hk htu => C.pure ?_
        exact bind_coupled v htu (coupled_mono hk h)
      · refine coupled_flatMapM (T := Cuts C) Cuts.mono (coupled_splits hss) fun k cut cut' hk hcut => ?_
        refine C.bind (coupled_sequenceFrom hcut.1 none) fun l t u hl htu => ?_
        refine coupled_states (bind_coupled v htu (coupled_mono (by omega) h)) fun i st st' hi hst => ?_
        exact coupled_sequence hgo pFrame sFrame (Pairing.RelAll.mono (by omega) hps)
          (Pairing.RelAll.mono (by omega) hcut.2) hst
    · cases hss with
      | nil => exact coupled_none
      | cons hs hss =>
        refine C.bind (hgo hp hs h) fun k sts sts' hk hsts => ?_
        refine coupled_states hsts fun l st st' hl hst => ?_
        exact coupled_sequence hgo pFrame sFrame (Pairing.RelAll.mono (by omega) hps)
          (Pairing.RelAll.mono (by omega) hss) hst

theorem coupled_listOf (ops : CollectionOps) {ts us : List Term} (h : C.RelAll n ts us) :
    C.Runs n C.Rel (listOf ops ts) (listOf ops us) :=
  ListParts.runs_build (fun _ _ _ => id) (fun _ _ => C.canonical rfl (.app .nil))
    (.addItems h ⟨rfl, .nil, .nil, .nil⟩)

theorem coupled_listMiddle (hgo : Coupled C go go') (ops : CollectionOps) :
    ∀ {bases bases' items items' : List Term} {st st' : MatchState} {n : Nat}, C.RelAll n bases bases' →
      C.RelAll n items items' → MatchState.Coupled C n st st' →
        C.Runs n (States C) (listMiddle go ops bases items st) (listMiddle go' ops bases' items' st')
  | _, _, items, items', st, st', n, .nil, hitems, h => by
    rw [listMiddle, listMiddle, PairedLists.isEmpty_eq hitems]
    split
    · exact coupled_single h
    · exact coupled_none
  | b :: bases, b' :: bases', items, items', st, st', n, .cons hb hbases, hitems, h => by
    have hrun {run run' base base' : List Term} (hr : C.RelAll n run run') (he : C.RelAll n base base') :
        C.Runs n (States C)
          (if base.isEmpty && decide (run.length ≤ items.length) then do
            (← pairs go (run.zip items) [st]).flatMapM (listMiddle go ops bases (items.drop run.length))
          else return [])
          (if base'.isEmpty && decide (run'.length ≤ items'.length) then do
            (← pairs go' (run'.zip items') [st']).flatMapM (listMiddle go' ops bases' (items'.drop run'.length))
          else return []) := by
      rw [PairedLists.isEmpty_eq he, hr.length_eq, hitems.length_eq]
      refine Pairing.ite (fun _ => ?_) fun _ => coupled_none
      have hpairs := coupled_pairs hgo (relPair_zip hr hitems) (Nat.le_refl n) (.cons h .nil)
      refine C.bind hpairs fun k sts sts' hk hsts => ?_
      refine coupled_states hsts fun l st st' hl hst => ?_
      exact coupled_listMiddle hgo ops (Pairing.RelAll.mono (by omega) hbases)
        (List.forall₂_drop _ (Pairing.RelAll.mono (by omega) hitems)) hst
    have hcuts : List.Forall₂ (Cuts C n) (if bases.isEmpty then [(items, [])] else splits items)
        (if bases'.isEmpty then [(items', [])] else splits items') := by
      rw [PairedLists.isEmpty_eq hbases]
      split
      · exact .cons ⟨hitems, .nil⟩ .nil
      · exact coupled_splits hitems
    have hrest {k : Nat} {cut cut' : List Term × List Term} (hk : n ≤ k) (hcut : Cuts C k cut cut') :
        C.Runs k (States C) (do (← go b (← listOf ops cut.1) st).flatMapM (listMiddle go ops bases cut.2))
        (do (← go' b' (← listOf ops cut'.1) st').flatMapM (listMiddle go' ops bases' cut'.2)) := by
      refine C.bind (coupled_listOf ops hcut.1) fun l t u hl htu => ?_
      refine C.bind (hgo (C.rel_mono (by omega) hb) htu (coupled_mono (by omega) h)) fun i sts sts' hi hsts => ?_
      refine coupled_states hsts fun j st st' hj hst => ?_
      exact coupled_listMiddle hgo ops (Pairing.RelAll.mono (by omega) hbases)
        (Pairing.RelAll.mono (by omega) hcut.2) hst
    have halike := C.alike hb
    rw [listMiddle, listMiddle]
    generalize b.node = a, b'.node = a' at halike
    cases halike with
    | list hl hbase _ => exact hrun hl hbase
    | _ => exact coupled_flatMapM (T := Cuts C) Cuts.mono hcuts fun k cut cut' hk hcut => hrest hk hcut

theorem coupled_list (hgo : Coupled C go go') {p p' q q' : ListParts} (hp : ListParts.Paired (C.Rel n) p p')
    (hq : ListParts.Paired (C.Rel n) q q') (h : MatchState.Coupled C n st st') :
    C.Runs n (States C) (list go p q st) (list go' p' q' st') := by
  have hst : States C n [st] [st'] := .cons h .nil
  unfold list
  dsimp only
  rw [PairedLists.isEmpty_eq hq.base, PairedLists.isEmpty_eq hp.base, hq.left.length_eq, hq.base.length_eq,
    hq.right.length_eq, hp.left.length_eq, hp.base.length_eq, hp.right.length_eq]
  refine Pairing.ite (fun _ => Pairing.ite (fun _ => ?_) fun _ => coupled_none) fun _ =>
    Pairing.ite (fun _ => coupled_none) fun _ => ?_
  · refine coupled_pairs hgo (List.rel_append (List.rel_append ?_ ?_) ?_) (Nat.le_refl n) hst
    · exact relPair_zip hp.left hq.left
    · exact relPair_zip hp.base hq.base
    · exact relPair_zip hp.right hq.right
  · have hends := List.rel_append (relPair_zip hp.left hq.left)
      (relPair_zip hp.right (List.forall₂_drop (q'.left.length - p'.right.length) hq.left))
    refine C.bind (coupled_pairs hgo hends (Nat.le_refl n) hst) fun k sts sts' hk hsts => ?_
    refine coupled_states hsts fun l st st' hl hst => ?_
    have hleft : C.RelAll l q.left q'.left := Pairing.RelAll.mono (by omega) hq.left
    rw [hp.ops]
    exact coupled_listMiddle hgo p'.ops (Pairing.RelAll.mono (by omega) hp.base)
      (List.forall₂_take _ (List.forall₂_drop _ hleft)) hst

theorem coupled_rest {α β : Type} {T : α → β → Prop} {go : α → Term → MatchState → Build (List MatchState)}
    {go' : β → Term → MatchState → Build (List MatchState)} {bases : List α} {bases' : List β} {r r' : Term}
    (hgo : ∀ a b, T a b → C.Runs n (States C) (go a r st) (go' b r' st')) (hb : List.Forall₂ T bases bases')
    (hr : C.Rel n r r') (h : MatchState.Coupled C n st st') :
    C.Runs n (States C) (rest go bases r st) (rest go' bases' r' st') := by
  unfold rest
  rcases hb with _ | ⟨hb, _ | _⟩
  · refine C.pure ?_
    have halike := C.alike hr
    generalize r.node = m, r'.node = n at halike
    cases halike with
    | map he hb =>
      cases he <;> cases hb <;> first | exact .cons h .nil | exact .nil
    | set he hb =>
      cases he <;> cases hb <;> first | exact .cons h .nil | exact .nil
    | @cells _ _ frames hc =>
      cases hc <;> cases frames <;> first | exact .cons h .nil | exact .nil
    | _ => exact .nil
  · exact hgo _ _ hb
  · exact coupled_none

/-! ### Maps, sets and cells -/

theorem coupled_mapEntries (hgo : Coupled C go go') (hdeeper : Coupled C deeper deeper') (ops : CollectionOps) :
    ∀ {sBase sBase' pBase pBase' : List Term} {pending pending' unused unused' : List (Term × Term)}
      {st st' : MatchState} {n : Nat}, C.RelAll n sBase sBase' → C.RelAll n pBase pBase' → Pairs C n pending pending' →
        Pairs C n unused unused' → MatchState.Coupled C n st st' →
          C.Runs n (States C) (mapEntries go deeper ops sBase pBase pending unused st)
            (mapEntries go' deeper' ops sBase' pBase' pending' unused' st')
  | sBase, sBase', pBase, pBase', _, _, unused, unused', st, st', n, hs, hp, .nil, hunused, h => by
    have hrest : C.Runs n C.Rel (sBase.foldl MapParts.concat { ops, entries := unused }).build
        (sBase'.foldl MapParts.concat { ops, entries := unused' }).build :=
      MapParts.runs_build (.concatAll hs ⟨rfl, hunused, .nil⟩)
    rw [mapEntries, mapEntries]
    refine C.bind hrest fun k r r' hk hr => ?_
    exact coupled_rest (fun b b' hb => hgo hb hr (coupled_mono hk h)) (Pairing.RelAll.mono hk hp) hr (coupled_mono hk h)
  | sBase, sBase', pBase, pBase', (key, value) :: pending, (key', value') :: pending', unused, unused', st, st', n, hs, hp,
      .cons he hpending, hunused, h => by
    obtain ⟨hkey, hvalue⟩ := he
    rw [mapEntries, mapEntries]
    refine C.bind (h.substitution.apply hkey) fun k key key' hk hkey => ?_
    have hrest {l : Nat} (hl : n ≤ l) (e e' : Term × Term) (he : RelPair C l e e') {st st' : MatchState}
        (h : MatchState.Coupled C l st st') : C.Runs l (States C)
          (go value e.2 st >>= List.flatMapM
            (mapEntries go deeper ops sBase pBase pending (SortedList.erase e.1 unused)))
          (go' value' e'.2 st' >>= List.flatMapM
            (mapEntries go' deeper' ops sBase' pBase' pending' (SortedList.erase e'.1 unused'))) := by
      refine C.bind (hgo (C.rel_mono hl hvalue) he.2 h) fun i sts sts' hi hsts => ?_
      refine coupled_states hsts fun j st st' hj hst => ?_
      refine coupled_mapEntries hgo hdeeper ops (Pairing.RelAll.mono (by omega) hs) (Pairing.RelAll.mono (by omega) hp)
        (Pairs.mono (by omega) hpending) ?_ hst
      refine Pairs.mono (by omega : l ≤ j) (PairedLists.filter (fun d d' hd => ?_) (Pairs.mono hl hunused))
      exact congrArg not (Term.beq_congr (C.beq hd.1) (C.beq he.1))
    dsimp only
    rw [Term.isGround_congr (C.beq hkey)]
    refine Pairing.ite (fun _ => ?_) fun _ => ?_
    · have hfound : Pairs C k (unused.filter (·.1 == key)) (unused'.filter (·.1 == key')) :=
        PairedLists.filter (fun e e' he => Term.beq_congr (C.beq he.1) (C.beq hkey)) (Pairs.mono hk hunused)
      refine coupled_flatMapM (T := RelPair C) RelPair.mono hfound fun l e e' hl he => ?_
      exact hrest (by omega) e e' he (coupled_mono (by omega) h)
    · refine coupled_flatMapM (T := RelPair C) RelPair.mono (Pairs.mono hk hunused) fun l e e' hl he => ?_
      refine C.bind (hdeeper (C.rel_mono hl hkey) he.1 (coupled_mono (by omega) h)) fun i sts sts' hi hsts => ?_
      refine coupled_states hsts fun j st st' hj hst => ?_
      exact hrest (by omega) e e' (he.mono (by omega)) hst

theorem coupled_setElements (hgo : Coupled C go go') (hdeeper : Coupled C deeper deeper') (ops : CollectionOps) :
    ∀ {sBase sBase' pBase pBase' pending pending' unused unused' : List Term} {st st' : MatchState} {n : Nat},
      C.RelAll n sBase sBase' → C.RelAll n pBase pBase' → C.RelAll n pending pending' → C.RelAll n unused unused' →
        MatchState.Coupled C n st st' →
          C.Runs n (States C) (setElements go deeper ops sBase pBase pending unused st)
            (setElements go' deeper' ops sBase' pBase' pending' unused' st')
  | sBase, sBase', pBase, pBase', _, _, unused, unused', st, st', n, hs, hp, .nil, hunused, h => by
    have hrest : C.Runs n C.Rel (sBase.foldl SetParts.concat { ops, elements := unused }).build
        (sBase'.foldl SetParts.concat { ops, elements := unused' }).build :=
      SetParts.runs_build (.concatAll hs ⟨rfl, hunused, .nil⟩)
    rw [setElements, setElements]
    refine C.bind hrest fun k r r' hk hr => ?_
    exact coupled_rest (fun b b' hb => hgo hb hr (coupled_mono hk h)) (Pairing.RelAll.mono hk hp) hr (coupled_mono hk h)
  | sBase, sBase', pBase, pBase', element :: pending, element' :: pending', unused, unused', st, st', n, hs, hp,
      .cons he hpending, hunused, h => by
    rw [setElements, setElements]
    refine C.bind (h.substitution.apply he) fun k element element' hk he => ?_
    have hfound : C.RelAll k (unused.filter fun s => !element.isGround || element == s)
        (unused'.filter fun s => !element'.isGround || element' == s) := by
      refine PairedLists.filter (fun s s' hs => ?_) (Pairing.RelAll.mono hk hunused)
      rw [Term.isGround_congr (C.beq he), Term.beq_congr (C.beq he) (C.beq hs)]
    refine coupled_flatMapM (T := C.Rel) C.rel_mono hfound fun l s s' hl hss => ?_
    refine C.bind (hdeeper (C.rel_mono hl he) hss (coupled_mono (by omega) h)) fun i sts sts' hi hsts => ?_
    refine coupled_states hsts fun j st st' hj hst => ?_
    refine coupled_setElements hgo hdeeper ops (Pairing.RelAll.mono (by omega) hs) (Pairing.RelAll.mono (by omega) hp)
      (Pairing.RelAll.mono (by omega) hpending) (Pairing.RelAll.mono (by omega : n ≤ j) ?_) hst
    exact PairedLists.filter (fun t t' ht => congrArg not (Term.beq_congr (C.beq ht) (C.beq hss))) hunused

/-- Cells at the same position, with related contents. -/
abbrev RelNumbered (C : Coupling) (n : Nat) (u u' : Nat × Cell) : Prop :=
  u.1 = u'.1 ∧ CellParts.PairedCells (C.Rel n) u.2 u'.2

theorem RelNumbered.mono {u u' : Nat × Cell} (hm : n ≤ m) (h : RelNumbered C n u u') : RelNumbered C m u u' :=
  ⟨h.1, h.2.1, h.2.2.1, C.rel_mono hm h.2.2.2⟩

abbrev Numbered (C : Coupling) (n : Nat) (us us' : List (Nat × Cell)) : Prop := List.Forall₂ (RelNumbered C n) us us'

theorem coupled_cells (hgo : Coupled C go go') (sFrames pFrames : List Var) :
    ∀ {pending pending' : List Cell} {unused unused' : List (Nat × Cell)} {st st' : MatchState} {n : Nat},
      List.Forall₂ (CellParts.PairedCells (C.Rel n)) pending pending' → Numbered C n unused unused' →
        MatchState.Coupled C n st st' →
          C.Runs n (States C) (cells go sFrames pFrames pending unused st) (cells go' sFrames pFrames pending' unused' st')
  | _, _, unused, unused', st, st', n, .nil, hunused, h => by
    have hcells : List.Forall₂ (CellParts.PairedCells (C.Rel n)) (unused.map (·.2)) (unused'.map (·.2)) := by
      rw [List.forall₂_map_left_iff, List.forall₂_map_right_iff]
      exact hunused.imp fun _ _ hu => hu.2
    have hrest : C.Runs n C.Rel (CellParts.build ⟨unused.map (·.2), sFrames⟩)
        (CellParts.build ⟨unused'.map (·.2), sFrames⟩) := CellParts.runs_build ⟨hcells, rfl⟩
    rw [cells, cells]
    refine C.bind hrest fun k r r' hk hr => ?_
    refine coupled_rest (T := Eq) (fun v w hvw => ?_) (List.forall₂_same.mpr fun _ _ => rfl) hr (coupled_mono hk h)
    exact hvw ▸ C.pure (bind_coupled v hr (coupled_mono hk h))
  | cell :: pending, cell' :: pending', unused, unused', st, st', n, .cons hcell hpending, hunused, h => by
    have hfound : Numbered C n (unused.filter (·.2.label == cell.label)) (unused'.filter (·.2.label == cell'.label)) :=
      PairedLists.filter (fun u u' hu => by rw [hu.2.1, hcell.1]) hunused
    rw [cells, cells]
    refine coupled_flatMapM (T := RelNumbered C) RelNumbered.mono hfound fun k u u' hk hu => ?_
    refine C.bind (hgo (C.rel_mono hk hcell.2.2) hu.2.2.2 (coupled_mono hk h)) fun l sts sts' hl hsts => ?_
    refine coupled_states hsts fun i st st' hi hst => ?_
    have hleft : Numbered C n (unused.filter (·.1 != u.1)) (unused'.filter (·.1 != u'.1)) :=
      PairedLists.filter (fun w w' hw => by rw [hw.1, hu.1]) hunused
    refine coupled_cells hgo sFrames pFrames ?_ (hleft.imp fun _ _ => RelNumbered.mono (by omega)) hst
    exact hpending.imp fun _ _ hc => ⟨hc.1, hc.2.1, C.rel_mono (by omega) hc.2.2⟩

/-! ### One level of a match -/

/-- Branches with related patterns and the same rules. -/
abbrev RelBranch (C : Coupling) (n : Nat) (b b' : Term.Branch) : Prop := C.Rel n b.1 b'.1 ∧ b.2 = b'.2

theorem RelBranch.mono {b b' : Term.Branch} (hm : n ≤ m) (h : RelBranch C n b b') : RelBranch C m b b' :=
  ⟨C.rel_mono hm h.1, h.2⟩

theorem candidateBranches_coupled {bs bs' : List Term.Branch} (hbs : List.Forall₂ (RelBranch C n) bs bs')
    (hs : s == s') :
    List.Forall₂ (RelBranch C n) (Term.candidateBranches s bs) (Term.candidateBranches s' bs') := by
  induction hbs with
  | nil => exact .nil
  | @cons b b' bs bs' hb hbs ih =>
    have hbeq := C.beq hb.1
    have hlater : (bs.any fun c => c.1 == b.1) = bs'.any fun c => c.1 == b'.1 := by
      clear ih
      induction hbs with
      | nil => rfl
      | cons hc _ ih => rw [List.any_cons, List.any_cons, ih, Term.beq_congr (C.beq hc.1) hbeq]
    rw [Term.candidateBranches, Term.candidateBranches, hlater, headAdmits_congr hs, headAdmits_congr_left hbeq,
      isToken_congr hbeq]
    split
    · exact .cons hb ih
    · exact ih

theorem coupled_branches (hgo : Coupled C go go') {bs bs' : List Term.Branch}
    (hbs : List.Forall₂ (RelBranch C n) bs bs') (hs : C.Rel n s s') (h : MatchState.Coupled C n st st') :
    C.Runs n (States C) (branches go bs s st) (branches go' bs' s' st') := by
  unfold branches
  rw [h.rules]
  refine coupled_flatMapM (T := RelBranch C) RelBranch.mono (candidateBranches_coupled hbs (C.beq hs))
    fun k b b' hk hb => ?_
  obtain ⟨p, rules⟩ := b
  obtain ⟨q, rules'⟩ := b'
  obtain ⟨hp, rfl⟩ := hb
  refine Pairing.ite (fun _ => coupled_none) fun _ => ?_
  exact hgo hp (C.rel_mono hk hs) ⟨h.substitution.mono hk, rfl⟩

/-- One level of a match is coupled where the levels below are. -/
theorem coupled_node (hgo : Coupled C go go') (hdeeper : Coupled C deeper deeper') :
    Coupled C (node go deeper) (node go' deeper') := by
  intro n p q s s' st st' hp hs h
  have hpbeq := C.beq hp
  have hpalike := C.alike hp
  have halike := C.alike hs
  have hview := sequenceView_alike hs halike
  have hst : States C n [st] [st'] := .cons h .nil
  unfold node
  rw [Term.isGround_congr hpbeq, Term.hasRewrite_congr hpbeq, Term.hasDisjunction_congr hpbeq]
  refine Pairing.ite (fun _ => ?_) fun _ => ?_
  · rw [Term.beq_congr hpbeq (C.beq hs)]
    split
    · exact coupled_single h
    · exact coupled_none
  generalize hn : p.node = a, q.node = b at hpalike
  cases hpalike with
  | @var v => exact C.pure (bind_coupled v hs h)
  | rewrite hl _ => exact hgo hl hs h
  | disjunction hbs => exact coupled_branches hgo hbs hs h
  | app hps =>
    generalize s.node = m, s'.node = n at halike
    cases halike with
    | app hss =>
      dsimp only
      rw [hps.length_eq, hss.length_eq]
      exact Pairing.ite (fun _ => coupled_pairs hgo (relPair_zip hps hss) (Nat.le_refl _) hst) fun _ => coupled_none
    | _ => exact coupled_none
  | freezer hf hps =>
    generalize s.node = m, s'.node = n at halike
    cases halike with
    | freezer hg hss =>
      dsimp only
      rw [hps.length_eq, hss.length_eq]
      refine Pairing.ite (fun _ => ?_) fun _ => coupled_none
      refine C.bind (hgo hf hg h) fun k sts sts' hk hsts => ?_
      refine coupled_states hsts fun l st st' hl hst => ?_
      exact coupled_pairs hgo (relPair_zip hps hss) (by omega) (.cons hst .nil)
    | _ => exact coupled_none
  | @seq _ _ frame hps =>
    dsimp only
    rw [hview.2]
    exact coupled_sequence hgo frame _ hps hview.1 h
  | @list ops left left' base base' right right' hl hb hr =>
    have hlist (l l' : ListParts) (hll : ListParts.Paired (C.Rel n) l l') : C.Runs n (States C)
        (if l.ops = ops then list go { ops, left, base, right } l st else pure [])
        (if l'.ops = ops then list go' { ops, left := left', base := base', right := right' } l' st' else pure []) := by
      rw [hll.ops]
      exact Pairing.ite (fun _ => coupled_list hgo ⟨rfl, hl, hb, hr⟩ hll h) fun _ => coupled_none
    have hoperands := operandsOf?_alike ops hs (C.beq hs) halike
    generalize s.node = m, s'.node = n at halike
    cases halike with
    | list hl hb hr => exact hlist _ _ ⟨rfl, hl, hb, hr⟩
    | _ =>
      dsimp only
      generalize operandsOf? ops s = o, operandsOf? ops s' = o' at hoperands
      cases hoperands with
      | none => exact coupled_none
      | some hq => exact hlist _ _ hq
  | map hps hpb =>
    generalize s.node = m, s'.node = n at halike
    cases halike with
    | map hes hb =>
      dsimp only
      exact Pairing.ite (fun _ => coupled_mapEntries hgo hdeeper _ hb hpb hps hes h) fun _ => coupled_none
    | _ => exact coupled_none
  | set hps hpb =>
    generalize s.node = m, s'.node = n at halike
    cases halike with
    | set hes hb =>
      dsimp only
      exact Pairing.ite (fun _ => coupled_setElements hgo hdeeper _ hb hpb hps hes h) fun _ => coupled_none
    | _ => exact coupled_none
  | @cells _ _ frames hpcs =>
    generalize s.node = m, s'.node = n at halike
    cases halike with
    | cells hcs =>
      refine coupled_cells hgo _ frames hpcs ?_ h
      refine List.forall₂_iff_get.mpr ⟨?_, fun i hi hi' => ?_⟩
      · rw [List.length_mapIdx, List.length_mapIdx, hcs.length_eq]
      · rw [List.get_eq_getElem, List.get_eq_getElem, List.getElem_mapIdx, List.getElem_mapIdx]
        exact ⟨rfl, hcs.get _ _⟩
    | _ => exact coupled_none
  | _ =>
    generalize s.node = m, s'.node = n at halike
    cases halike <;> exact coupled_none

theorem coupled_upTo (hdeeper : Coupled C deeper deeper') : ∀ size, Coupled C (upTo deeper size) (upTo deeper' size)
  | 0 => fun _ _ _ => coupled_none
  | size + 1 => coupled_node (coupled_upTo hdeeper size) hdeeper

theorem coupled_below (size : Nat) : Coupled C (below size) (below size) := by
  induction size with
  | zero => exact fun _ _ _ => coupled_none
  | succ size ih =>
    intro n p q s s' st st' hp hs h
    have hupTo := coupled_upTo ih q.size hp hs h
    unfold below
    rw [Term.size_congr (C.beq hp)]
    exact hupTo

/-- Two runs of a match find the same bindings, to related terms. -/
theorem coupled_matchAll (hp : C.Rel n p q) (hs : C.Rel n s s') :
    C.Runs n (fun k => List.Forall₂ (Substitution.Coupled C k)) (matchAll p s) (matchAll q s') := by
  have hfrom : C.Runs n (States C) (matchFrom p s {}) (matchFrom q s' {}) := by
    unfold matchFrom
    rw [Term.size_congr (C.beq hs)]
    exact coupled_below s'.size hp hs ⟨.nil, rfl⟩
  refine C.bind hfrom fun k sts sts' _ hsts => C.pure ?_
  rw [List.forall₂_map_left_iff, List.forall₂_map_right_iff]
  exact hsts.imp fun _ _ h => h.substitution

end Matching

end RuleCompiler
