import RuleCompiler.Proofs.Matching.Ends

/-! # Matches of equal subjects

A match instantiates keys and elements of the pattern alone. Where these are ground it builds nothing that
could clash, and what it finds depends on what the subject says: equal subjects give equal bindings,
whatever the numbers of the nodes. -/

namespace RuleCompiler

open Build (Agree Always)
open Term (Equal)

theorem PairedLists.filter {α β : Type} {R : α → β → Prop} {p : α → Bool} {q : β → Bool}
    (hpq : ∀ a b, R a b → p a = q b) {as : List α} {bs : List β} (h : List.Forall₂ R as bs) :
    List.Forall₂ R (as.filter p) (bs.filter q) :=
  List.rel_filter (fun a b hab => Bool.eq_iff_iff.mp (hpq a b hab)) h

/-! ### Computations that end side by side -/

namespace Build
variable {α β γ δ : Type} {R : α → β → Prop} {S : γ → δ → Prop} {x : Build α} {y : Build β}

/-- Both computations give values, and related ones, wherever either begins to number nodes. -/
structure Concur (R : α → β → Prop) (x : Build α) (y : Build β) : Prop where
  agree : Agree R x y
  ends : Always x fun _ => True

namespace Concur

theorem pure {a : α} {b : β} (h : R a b) : Concur R (Pure.pure a) (Pure.pure b) := ⟨.pure h, .pure trivial⟩

theorem bind {f : α → Build γ} {g : β → Build δ} (hx : Concur R x y) (hf : ∀ a b, R a b → Concur S (f a) (g b)) :
    Concur S (x >>= f) (y >>= g) where
  agree := hx.agree.bind fun a b h => (hf a b h).agree
  ends := by
    intro n
    obtain ⟨a, k, hrun, -⟩ := hx.ends n
    have hout := hx.agree n 0
    rw [hrun] at hout
    obtain ⟨b, -, hR⟩ := hout.exists_right
    obtain ⟨c, m, hrun', -⟩ := (hf a b hR).ends k
    exact ⟨c, m, by rw [bind_eq hrun, hrun'], trivial⟩

theorem ite {c : Prop} [Decidable c] {x' : Build α} {y' : Build β} (h : c → Concur R x y)
    (h' : ¬c → Concur R x' y') : Concur R (if c then x else x') (if c then y else y') := by
  by_cases hc : c
  · rw [if_pos hc, if_pos hc]; exact h hc
  · rw [if_neg hc, if_neg hc]; exact h' hc

/-- Joining loops over related lists give related lists. -/
theorem flatMapM {T : γ → δ → Prop} {f : γ → Build (List α)} {g : δ → Build (List β)} {cs : List γ} {ds : List δ}
    (h : List.Forall₂ T cs ds) (hstep : ∀ c ∈ cs, ∀ d, T c d → Concur (List.Forall₂ R) (f c) (g d)) :
    Concur (List.Forall₂ R) (cs.flatMapM f) (ds.flatMapM g) := by
  induction h with
  | nil =>
    rw [List.flatMapM_nil, List.flatMapM_nil]
    exact .pure .nil
  | @cons c d cs ds hcd _ ih =>
    rw [List.flatMapM_cons, List.flatMapM_cons]
    refine (hstep c List.mem_cons_self d hcd).bind fun as bs has => ?_
    refine (ih fun e he => hstep e (List.mem_cons_of_mem c he)).bind fun as' bs' has' => .pure ?_
    exact List.rel_append has has'

end Concur

end Build

open Build (Concur)

/-! ### Bindings -/

namespace Substitution
variable {σ τ : Substitution} {t u : Term}

/-- The same variables are bound, to equal terms. -/
def Alike (σ τ : Substitution) : Prop :=
  List.Forall₂ (fun b c => b.1 = c.1 ∧ b.2 == c.2) σ.bindings τ.bindings

theorem Alike.refl (σ : Substitution) : σ.Alike σ := List.forall₂_same.mpr fun b _ => ⟨rfl, BEq.refl b.2⟩

theorem Alike.get? (h : σ.Alike τ) (v : Var) : Option.Rel (fun t u : Term => t == u) (σ.get? v) (τ.get? v) := by
  unfold Alike at h
  unfold Substitution.get? SortedList.get?
  generalize σ.bindings = bs, τ.bindings = cs at h
  induction h with
  | nil => exact .none
  | @cons b c bs cs hb _ ih =>
    rw [List.find?_cons, List.find?_cons, ← hb.1]
    split
    · exact .some hb.2
    · exact ih

theorem Alike.bind? (h : σ.Alike τ) (v : Var) (htu : t == u) : Option.Rel Alike (σ.bind? v t) (τ.bind? v u) := by
  have hv := h.get? v
  unfold Substitution.bind?
  generalize σ.get? v = o, τ.get? v = o' at hv
  cases hv with
  | none =>
    refine .some (SortedList.forall₂_put (R := Eq) (S := fun t u : Term => t == u) ?_ rfl htu h)
    rintro _ _ _ _ rfl rfl
    rfl
  | @some a b hab =>
    dsimp only
    rw [Term.beq_congr hab htu]
    split
    · exact .some h
    · exact .none

end Substitution

/-- The same rules are possible, and the bindings are alike. -/
structure MatchState.Alike (st st' : MatchState) : Prop where
  substitution : st.substitution.Alike st'.substitution
  rules : st.rules = st'.rules

/-! ### Ground keys -/

/-- Whether keys and elements are ground. -/
def Node.hasGroundKeys : Node Term → Bool
  | .map _ entries _ => entries.all fun e => e.1.isGround
  | .set _ elements _ => elements.all Term.isGround
  | _ => true

namespace Term
variable {t c : Term}

/-- Whether all nodes that a match looks at have ground keys. -/
def hasGroundKeys : Term → Bool :=
  fold fun t below => match t.node, below with
    | .rewrite .., left :: _ => left
    | n, below => n.hasGroundKeys && below.all id

abbrev HasGroundKeys (t : Term) : Prop := t.hasGroundKeys = true

theorem hasGroundKeys_iff : t.HasGroundKeys ↔ t.node.hasGroundKeys ∧ ∀ c ∈ t.sides false, c.HasGroundKeys := by
  rw [HasGroundKeys, hasGroundKeys, fold_eq, ← hasGroundKeys, sides, children]
  cases t.node with
  | rewrite l r => simp [Node.children, Node.hasGroundKeys]
  | _ => simp

theorem HasGroundKeys.child (h : t.HasGroundKeys) (hr : t.isRewrite = false) (hc : c ∈ t.children) : c.HasGroundKeys :=
  (hasGroundKeys_iff.mp h).2 c (by rwa [sides_of_not_rewrite hr])

theorem size_congr {u : Term} (h : t == u) : t.size = u.size := by
  induction t using Term.induction generalizing u with
  | h t ih =>
    have hsizes : t.children.map size = u.children.map size := by
      refine PairedLists.map_eq (PairedLists.imp_mem (children_congr h) fun c hc d _ hcd => ih c hc hcd)
    rw [size_eq, size_eq, hsizes]

end Term

namespace Matching
variable {go deeper : Matcher} {st st' : MatchState} {p s s' : Term}

/-- The lists hold states that are alike, one by one. -/
abbrev AllAlike (sts sts' : List MatchState) : Prop := List.Forall₂ MatchState.Alike sts sts'

/-- The matcher never clashes, and finds alike states in equal subjects. -/
def Determined (go : Matcher) : Prop :=
  ∀ p s s' st st', p.HasGroundKeys → s == s' → st.Alike st' → Concur AllAlike (go p s st) (go p s' st')

/-! ### Parts of a match -/

theorem concur_none : Concur AllAlike (pure []) (pure []) := .pure .nil

theorem concur_single (h : st.Alike st') : Concur AllAlike (pure [st]) (pure [st']) := .pure (.cons h .nil)

theorem bind_alike (v : Var) (hs : s == s') (h : st.Alike st') : AllAlike (bind v s st) (bind v s' st') := by
  unfold bind
  rw [Term.sort_congr hs]
  split
  · exact .nil
  split
  · exact .cons h .nil
  · have hbind := h.substitution.bind? v hs
    generalize st.substitution.bind? v s = o, st'.substitution.bind? v s' = o' at hbind
    cases hbind with
    | none => exact .nil
    | some hσ => exact .cons ⟨hσ, h.rules⟩ .nil

/-- Pairs of the same patterns with equal subjects. -/
abbrev SamePairs (es es' : List (Term × Term)) : Prop :=
  List.Forall₂ (fun e e' => e.1 = e'.1 ∧ e.1.HasGroundKeys ∧ e.2 == e'.2) es es'

theorem samePairs_zip {ps ss ss' : List Term} (hps : ∀ p ∈ ps, p.HasGroundKeys) (hss : Equal ss ss') :
    SamePairs (ps.zip ss) (ps.zip ss') := by
  induction ps generalizing ss ss' with
  | nil => exact .nil
  | cons p ps ih =>
    obtain ⟨hp, hps⟩ := List.forall_mem_cons.mp hps
    cases hss with
    | nil => exact .nil
    | cons hs hss => exact .cons ⟨rfl, hp, hs⟩ (ih hps hss)

theorem concur_pairs (hgo : Determined go) {es es' : List (Term × Term)} (hes : SamePairs es es') :
    ∀ {sts sts' : List MatchState}, AllAlike sts sts' → Concur AllAlike (pairs go es sts) (pairs go es' sts') := by
  induction hes with
  | nil =>
    intro sts sts' h
    rw [pairs, pairs]
    exact .pure h
  | @cons e e' es es' he _ ih =>
    obtain ⟨p, s⟩ := e
    obtain ⟨p', s'⟩ := e'
    obtain ⟨rfl, hp, hs⟩ := he
    intro sts sts' h
    cases h with
    | nil =>
      rw [pairs, pairs]
      · exact concur_none
      · simp
      · simp
    | cons h hsts =>
      rw [pairs, pairs]
      · refine (Concur.flatMapM (.cons h hsts) fun st _ st' hst => hgo p s s' st st' hp hs hst).bind ?_
        exact fun _ _ => ih
      · simp
      · simp

theorem concur_sequenceFrom {ss ss' : List Term} (h : Equal ss ss') (frame : Option Var) :
    Concur (fun t u : Term => t == u) (Term.sequenceFrom ss frame) (Term.sequenceFrom ss' frame) where
  agree := by
    have hframe : Build.Agree Equal (frame.toList.mapM Term.var) (frame.toList.mapM Term.var) :=
      Build.Agree.mapM (T := Eq) (List.forall₂_refl _) fun v _ w hvw => by
        subst hvw
        exact Term.agree_var v
    exact hframe.bind fun fs fs' hfs => Term.agree_sequence (h.append hfs)
  ends := by
    refine (Always.mapM (S := fun _ _ => True) fun v _ => ?_).bind fun fs _ => ?_
    · exact (Term.always_new _).mono fun _ _ => trivial
    · exact (Always.foldlM_ends SequenceParts.ends_add _ _).bind fun p _ => p.ends_build

theorem equal_splits {ss ss' : List Term} (h : Equal ss ss') :
    List.Forall₂ (fun c c' => Equal c.1 c'.1 ∧ Equal c.2 c'.2) (splits ss) (splits ss') := by
  unfold splits
  rw [h.length_eq, List.forall₂_map_left_iff, List.forall₂_map_right_iff]
  refine List.forall₂_same.mpr fun n _ => ?_
  rw [List.splitAt_eq, List.splitAt_eq]
  exact ⟨List.forall₂_take n h, List.forall₂_drop n h⟩

theorem concur_sequence (hgo : Determined go) (pFrame sFrame : Option Var) :
    ∀ {ps ss ss' : List Term} {st st' : MatchState}, (∀ p ∈ ps, p.HasGroundKeys) → Equal ss ss' → st.Alike st' →
      Concur AllAlike (sequence go pFrame sFrame ps ss st) (sequence go pFrame sFrame ps ss' st')
  | [], ss, ss', st, st', _, hss, h => by
    rw [sequence.eq_def, sequence.eq_def]
    dsimp only
    cases pFrame with
    | some f => exact (concur_sequenceFrom hss sFrame).bind fun t u htu => .pure (bind_alike f htu h)
    | none =>
      dsimp only
      rw [PairedLists.isEmpty_eq hss]
      split
      · exact concur_single h
      · exact concur_none
  | p :: ps, ss, ss', st, st', hps, hss, h => by
    obtain ⟨hp, hps⟩ := List.forall_mem_cons.mp hps
    rw [sequence.eq_def, sequence.eq_def go pFrame sFrame (p :: ps) ss']
    dsimp only
    split
    · rename_i v _
      refine .ite (fun _ => ?_) fun _ => ?_
      · exact (concur_sequenceFrom hss sFrame).bind fun t u htu => .pure (bind_alike v htu h)
      · refine Concur.flatMapM (equal_splits hss) fun cut _ cut' hcut => ?_
        refine (concur_sequenceFrom hcut.1 none).bind fun t u htu => ?_
        refine Concur.flatMapM (bind_alike v htu h) fun st _ st' hst => ?_
        exact concur_sequence hgo pFrame sFrame hps hcut.2 hst
    · cases hss with
      | nil => exact concur_none
      | cons hs hss =>
        refine (hgo p _ _ st st' hp hs h).bind fun sts sts' hsts => ?_
        exact Concur.flatMapM hsts fun st _ st' hst => concur_sequence hgo pFrame sFrame hps hss hst

theorem concur_listOf (ops : CollectionOps) {ts us : List Term} (h : Equal ts us) :
    Concur (fun t u : Term => t == u) (listOf ops ts) (listOf ops us) :=
  ⟨ListParts.agree_build (ListParts.Alike.foldl_addItem h (.refl _)), ListParts.ends_build _⟩

theorem concur_listMiddle (hgo : Determined go) (ops : CollectionOps) :
    ∀ {bases items items' : List Term} {st st' : MatchState}, (∀ b ∈ bases, b.HasGroundKeys) →
      Equal items items' → st.Alike st' →
        Concur AllAlike (listMiddle go ops bases items st) (listMiddle go ops bases items' st')
  | [], items, items', st, st', _, hitems, h => by
    rw [listMiddle, listMiddle, PairedLists.isEmpty_eq hitems]
    split
    · exact concur_single h
    · exact concur_none
  | b :: bases, items, items', st, st', hbases, hitems, h => by
    obtain ⟨hb, hbases⟩ := List.forall_mem_cons.mp hbases
    rw [listMiddle, listMiddle]
    split
    · rename_i run base right hn
      rw [hitems.length_eq]
      have hrun : ∀ p ∈ run, p.HasGroundKeys := fun p hp => hb.child (by rw [Term.isRewrite, hn]) (by
        rw [Term.children, hn]
        exact List.mem_append_left _ hp)
      refine .ite (fun _ => ?_) fun _ => concur_none
      refine (concur_pairs hgo (samePairs_zip hrun hitems) (.cons h .nil)).bind fun sts sts' hsts => ?_
      refine Concur.flatMapM hsts fun st _ st' hst => ?_
      exact concur_listMiddle hgo ops hbases (List.forall₂_drop _ hitems) hst
    · have hcuts : List.Forall₂ (fun c c' => Equal c.1 c'.1 ∧ Equal c.2 c'.2)
          (if bases.isEmpty then [(items, [])] else splits items)
          (if bases.isEmpty then [(items', [])] else splits items') := by
        split
        · exact .cons ⟨hitems, .nil⟩ .nil
        · exact equal_splits hitems
      refine Concur.flatMapM hcuts fun cut _ cut' hcut => ?_
      refine (concur_listOf ops hcut.1).bind fun t u htu => ?_
      refine (hgo b t u st st' hb htu h).bind fun sts sts' hsts => ?_
      exact Concur.flatMapM hsts fun st _ st' hst => concur_listMiddle hgo ops hbases hcut.2 hst

theorem concur_list (hgo : Determined go) {p q q' : ListParts}
    (hp : ∀ t ∈ p.left ++ (p.base ++ p.right), t.HasGroundKeys) (hq : q.Alike q') (h : st.Alike st') :
    Concur AllAlike (list go p q st) (list go p q' st') := by
  simp only [List.forall_mem_append] at hp
  obtain ⟨hleft, hbase, hright⟩ := hp
  have hst : AllAlike [st] [st'] := .cons h .nil
  unfold list
  dsimp only
  rw [PairedLists.isEmpty_eq hq.base, hq.left.length_eq, hq.base.length_eq, hq.right.length_eq]
  refine .ite (fun _ => .ite (fun _ => ?_) fun _ => concur_none) fun _ => .ite (fun _ => concur_none) fun _ => ?_
  · refine concur_pairs hgo (List.rel_append (List.rel_append ?_ ?_) ?_) hst
    · exact samePairs_zip hleft hq.left
    · exact samePairs_zip hbase hq.base
    · exact samePairs_zip hright hq.right
  · have hends := List.rel_append (samePairs_zip hleft hq.left)
      (samePairs_zip hright (List.forall₂_drop (q'.left.length - p.right.length) hq.left))
    refine (concur_pairs hgo hends hst).bind fun sts sts' hsts => ?_
    refine Concur.flatMapM hsts fun st _ st' hst => ?_
    exact concur_listMiddle hgo p.ops hbase (List.forall₂_take _ (List.forall₂_drop _ hq.left)) hst

theorem concur_rest {α : Type} {go : α → Term → MatchState → Build (List MatchState)} {bases : List α} {r r' : Term}
    (hgo : ∀ a ∈ bases, Concur AllAlike (go a r st) (go a r' st')) (hr : r == r') (h : st.Alike st') :
    Concur AllAlike (rest go bases r st) (rest go bases r' st') := by
  unfold rest
  split
  · refine .pure ?_
    have halike := Term.alike_of_beq hr
    generalize r.node = m, r'.node = n at halike
    cases halike with
    | map he hb =>
      cases he <;> cases hb <;> first | exact .cons h .nil | exact .nil
    | set he hb =>
      cases he <;> cases hb <;> first | exact .cons h .nil | exact .nil
    | @cells _ _ frames hc =>
      cases hc <;> cases frames <;> first | exact .cons h .nil | exact .nil
    | _ => exact .nil
  · exact hgo _ List.mem_cons_self
  · exact concur_none

/-! ### Maps, sets and cells -/

/-- Entries with equal keys and equal values. -/
abbrev SameEntries (es es' : List (Term × Term)) : Prop :=
  List.Forall₂ (fun e e' => e.1 == e'.1 ∧ e.2 == e'.2) es es'

theorem concur_mapEntries (hgo : Determined go) (ops : CollectionOps) {sBase sBase' pBase : List Term}
    (hsBase : Equal sBase sBase') (hpBase : ∀ b ∈ pBase, b.HasGroundKeys) :
    ∀ {pending unused unused' : List (Term × Term)} {st st' : MatchState},
      (∀ e ∈ pending, e.1.isGround ∧ e.2.HasGroundKeys) → SameEntries unused unused' → st.Alike st' →
        Concur AllAlike (mapEntries go deeper ops sBase pBase pending unused st)
          (mapEntries go deeper ops sBase' pBase pending unused' st')
  | [], unused, unused', st, st', _, hunused, h => by
    have hrest : Concur (fun t u : Term => t == u) (sBase.foldl MapParts.concat { ops, entries := unused }).build
        (sBase'.foldl MapParts.concat { ops, entries := unused' }).build :=
      ⟨MapParts.agree_build (.concatAll hsBase ⟨rfl, hunused, .nil⟩), MapParts.ends_build _⟩
    rw [mapEntries, mapEntries]
    exact hrest.bind fun r r' hr => concur_rest (fun b hb => hgo b r r' st st' (hpBase b hb) hr h) hr h
  | (key, value) :: pending, unused, unused', st, st', hpending, hunused, h => by
    obtain ⟨⟨hkey, hvalue⟩, hpending⟩ := List.forall_mem_cons.mp hpending
    have hfound : SameEntries (unused.filter (·.1 == key)) (unused'.filter (·.1 == key)) :=
      PairedLists.filter (fun _ _ he => Term.beq_congr he.1 (BEq.refl key)) hunused
    rw [mapEntries, mapEntries, Substitution.apply, Substitution.apply, Term.substitute_of_isGround hkey,
      Term.substitute_of_isGround hkey, pure_bind, pure_bind, if_pos hkey, if_pos hkey]
    refine Concur.flatMapM hfound fun e _ e' he => ?_
    refine (hgo value e.2 e'.2 st st' hvalue he.2 h).bind fun sts sts' hsts => ?_
    refine Concur.flatMapM hsts fun st _ st' hst => ?_
    refine concur_mapEntries hgo ops hsBase hpBase hpending ?_ hst
    exact PairedLists.filter (fun d d' hd => congrArg not (Term.beq_congr hd.1 he.1)) hunused

theorem concur_setElements (hgo : Determined go) (hdeeper : Determined deeper) (ops : CollectionOps)
    {sBase sBase' pBase : List Term} (hsBase : Equal sBase sBase') (hpBase : ∀ b ∈ pBase, b.HasGroundKeys) :
    ∀ {pending unused unused' : List Term} {st st' : MatchState},
      (∀ e ∈ pending, e.isGround ∧ e.HasGroundKeys) → Equal unused unused' → st.Alike st' →
        Concur AllAlike (setElements go deeper ops sBase pBase pending unused st)
          (setElements go deeper ops sBase' pBase pending unused' st')
  | [], unused, unused', st, st', _, hunused, h => by
    have hrest : Concur (fun t u : Term => t == u) (sBase.foldl SetParts.concat { ops, elements := unused }).build
        (sBase'.foldl SetParts.concat { ops, elements := unused' }).build :=
      ⟨SetParts.agree_build (.concatAll hsBase ⟨rfl, hunused, .nil⟩), SetParts.ends_build _⟩
    rw [setElements, setElements]
    exact hrest.bind fun r r' hr => concur_rest (fun b hb => hgo b r r' st st' (hpBase b hb) hr h) hr h
  | element :: pending, unused, unused', st, st', hpending, hunused, h => by
    obtain ⟨⟨hground, helement⟩, hpending⟩ := List.forall_mem_cons.mp hpending
    have hfound : Equal (unused.filter fun s => !element.isGround || element == s)
        (unused'.filter fun s => !element.isGround || element == s) :=
      PairedLists.filter (fun s s' hs => by rw [Term.beq_congr (BEq.refl element) hs]) hunused
    rw [setElements, setElements, Substitution.apply, Substitution.apply, Term.substitute_of_isGround hground,
      Term.substitute_of_isGround hground, pure_bind, pure_bind]
    refine Concur.flatMapM hfound fun s _ s' hs => ?_
    refine (hdeeper element s s' st st' helement hs h).bind fun sts sts' hsts => ?_
    refine Concur.flatMapM hsts fun st _ st' hst => ?_
    refine concur_setElements hgo hdeeper ops hsBase hpBase hpending ?_ hst
    exact PairedLists.filter (fun t t' ht => congrArg not (Term.beq_congr ht hs)) hunused

/-- Cells at the same positions, with equal contents. -/
abbrev SameNumbered (us us' : List (Nat × Cell)) : Prop :=
  List.Forall₂ (fun u u' => u.1 = u'.1 ∧ CellParts.SameCell u.2 u'.2) us us'

theorem concur_cells (hgo : Determined go) (sFrames pFrames : List Var) :
    ∀ {pending : List Cell} {unused unused' : List (Nat × Cell)} {st st' : MatchState},
      (∀ c ∈ pending, c.content.HasGroundKeys) → SameNumbered unused unused' → st.Alike st' →
        Concur AllAlike (cells go sFrames pFrames pending unused st) (cells go sFrames pFrames pending unused' st')
  | [], unused, unused', st, st', _, hunused, h => by
    have hcells : List.Forall₂ CellParts.SameCell (unused.map (·.2)) (unused'.map (·.2)) := by
      rw [List.forall₂_map_left_iff, List.forall₂_map_right_iff]
      exact hunused.imp fun _ _ hu => hu.2
    have hrest : Concur (fun t u : Term => t == u) (CellParts.build ⟨unused.map (·.2), sFrames⟩)
        (CellParts.build ⟨unused'.map (·.2), sFrames⟩) :=
      ⟨CellParts.agree_build ⟨hcells, rfl⟩, CellParts.ends_build _⟩
    rw [cells, cells]
    exact hrest.bind fun r r' hr => concur_rest (fun v _ => .pure (bind_alike v hr h)) hr h
  | cell :: pending, unused, unused', st, st', hpending, hunused, h => by
    obtain ⟨hcell, hpending⟩ := List.forall_mem_cons.mp hpending
    have hfound : SameNumbered (unused.filter (·.2.label == cell.label)) (unused'.filter (·.2.label == cell.label)) :=
      PairedLists.filter (fun u u' hu => by rw [hu.2.1]) hunused
    rw [cells, cells]
    refine Concur.flatMapM hfound fun u _ u' hu => ?_
    refine (hgo _ _ _ st st' hcell hu.2.2.2 h).bind fun sts sts' hsts => ?_
    refine Concur.flatMapM hsts fun st _ st' hst => ?_
    refine concur_cells hgo sFrames pFrames hpending ?_ hst
    exact PairedLists.filter (fun w w' hw => by rw [hw.1, hu.1]) hunused

/-! ### One level of a match -/

theorem headAdmits_congr (hs : s == s') : p.headAdmits s = p.headAdmits s' := by
  have hbeq : (p == s) = (p == s') := Term.beq_congr (BEq.refl p) hs
  have halike := Term.alike_of_beq hs
  unfold Term.headAdmits
  rw [hbeq]
  generalize s.node = m, s'.node = n at halike
  cases halike <;> rfl

theorem headAdmits_congr_left {q : Term} (h : p == q) : p.headAdmits s = q.headAdmits s := by
  have hbeq : (p == s) = (q == s) := Term.beq_congr h (BEq.refl s)
  have halike := Term.alike_of_beq h
  unfold Term.headAdmits
  rw [hbeq]
  generalize p.node = m, q.node = n at halike
  cases halike <;> rfl

theorem isToken_congr {q : Term} (h : p == q) : p.isToken = q.isToken := by
  have halike := Term.alike_of_beq h
  unfold Term.isToken
  generalize p.node = m, q.node = n at halike
  cases halike <;> rfl

theorem candidateBranches_congr (hs : s == s') (bs : List Term.Branch) :
    Term.candidateBranches s bs = Term.candidateBranches s' bs := by
  induction bs with
  | nil => rfl
  | cons b bs ih => rw [Term.candidateBranches, Term.candidateBranches, headAdmits_congr hs, ih]

theorem concur_branches (hgo : Determined go) {bs : List Term.Branch} (hbs : ∀ b ∈ bs, b.1.HasGroundKeys)
    (hs : s == s') (h : st.Alike st') : Concur AllAlike (branches go bs s st) (branches go bs s' st') := by
  unfold branches
  rw [candidateBranches_congr hs, h.rules]
  refine Concur.flatMapM (T := Eq) (List.forall₂_refl _) fun b hb b' hbb' => ?_
  subst hbb'
  refine .ite (fun _ => concur_none) fun _ => ?_
  exact hgo b.1 s s' _ _ (hbs b (mem_candidateBranches hb)) hs ⟨h.substitution, rfl⟩

/-- Related terms are read as sequences of related items, with the same frame. -/
theorem sequenceView_alike {R : Term → Term → Prop} (hs : R s s') (halike : Node.Alike R s.node s'.node) :
    List.Forall₂ R (sequenceView s).1 (sequenceView s').1 ∧ (sequenceView s).2 = (sequenceView s').2 := by
  have hself : List.Forall₂ R [s] [s'] := .cons hs .nil
  unfold sequenceView
  generalize s.node = m, s'.node = n at halike
  cases halike with
  | seq h => exact ⟨h, rfl⟩
  | var =>
    dsimp only
    split
    · exact ⟨.nil, rfl⟩
    · exact ⟨hself, rfl⟩
  | _ => exact ⟨hself, rfl⟩

theorem isUnit_congr (ops : CollectionOps) (hs : s == s') : ops.isUnit s = ops.isUnit s' := by
  have halike := Term.alike_of_beq hs
  unfold CollectionOps.isUnit
  generalize s.node = m, s'.node = n at halike
  cases halike with
  | app h => cases h <;> rfl
  | _ => rfl

/-- Related terms are read as lists of related operands. -/
theorem operandsOf?_alike {R : Term → Term → Prop} (ops : CollectionOps) (hs : R s s') (hbeq : s == s')
    (halike : Node.Alike R s.node s'.node) :
    Option.Rel (ListParts.Paired R) (operandsOf? ops s) (operandsOf? ops s') := by
  have hself : List.Forall₂ R [s] [s'] := .cons hs .nil
  have hoperand : Option.Rel (ListParts.Paired R)
      (some (if ops.isUnit s then { ops } else { ops, left := [s] }))
      (some (if ops.isUnit s' then { ops } else { ops, left := [s'] })) := by
    rw [isUnit_congr ops hbeq]
    split
    · exact .some ⟨rfl, .nil, .nil, .nil⟩
    · exact .some ⟨rfl, hself, .nil, .nil⟩
  unfold operandsOf?
  split
  · exact .none
  generalize s.node = m, s'.node = n at halike
  cases halike with
  | list hl hb hr =>
    dsimp only
    split
    · exact .some ⟨rfl, hl, hb, hr⟩
    · exact .none
  | var =>
    dsimp only
    split
    · exact .some ⟨rfl, .nil, hself, .nil⟩
    · exact .some ⟨rfl, hself, .nil, .nil⟩
  | _ => exact hoperand

/-- One level of a match is determined where the levels below are. -/
theorem determined_node (hgo : Determined go) (hdeeper : Determined deeper) : Determined (node go deeper) := by
  intro p s s' st st' hp hs h
  obtain ⟨hkeys, hpart⟩ := Term.hasGroundKeys_iff.mp hp
  have halike := Term.alike_of_beq hs
  have hview := sequenceView_alike hs halike
  unfold node
  refine .ite (fun _ => ?_) fun _ => ?_
  · rw [Term.beq_congr (BEq.refl p) hs]
    split
    · exact concur_single h
    · exact concur_none
  rw [Term.sides, Term.children] at hpart
  cases hn : p.node with
  | var v => exact .pure (bind_alike v hs h)
  | rewrite l r =>
    rw [hn] at hpart
    exact hgo l s s' st st' (hpart l List.mem_cons_self) hs h
  | disjunction bs =>
    rw [hn] at hpart
    exact concur_branches hgo (fun b hb => hpart _ (List.mem_map_of_mem hb)) hs h
  | app label ps k =>
    rw [hn] at hpart
    generalize s.node = m, s'.node = n at halike
    cases label with
    | const l =>
      cases halike with
      | app hss =>
        dsimp only
        rw [hss.length_eq]
        exact .ite (fun _ => concur_pairs hgo (samePairs_zip hpart hss) (.cons h .nil)) fun _ => concur_none
      | _ => exact concur_none
    | freezer f =>
      obtain ⟨hf, hps⟩ := List.forall_mem_cons.mp hpart
      cases halike with
      | freezer hg hss =>
        dsimp only
        rw [hss.length_eq]
        refine .ite (fun _ => ?_) fun _ => concur_none
        refine (hgo f _ _ st st' hf hg h).bind fun sts sts' hsts => ?_
        exact Concur.flatMapM hsts fun st _ st' hst => concur_pairs hgo (samePairs_zip hps hss) (.cons hst .nil)
      | _ => exact concur_none
  | seq items frame =>
    rw [hn] at hpart
    dsimp only
    rw [hview.2]
    exact concur_sequence hgo frame _ hpart hview.1 h
  | list ops left base right =>
    rw [hn] at hpart
    have hlist (q q' : ListParts) (hq : q.Alike q') :
        Concur AllAlike (if q.ops = ops then list go { ops, left, base, right } q st else pure [])
          (if q'.ops = ops then list go { ops, left, base, right } q' st' else pure []) := by
      rw [hq.ops]
      exact .ite (fun _ => concur_list hgo hpart hq h) fun _ => concur_none
    have hoperands := operandsOf?_alike ops hs hs halike
    generalize s.node = m, s'.node = n at halike
    cases halike with
    | list hl hb hr => exact hlist _ _ ⟨rfl, hl, hb, hr⟩
    | _ =>
      dsimp only
      generalize operandsOf? ops s = o, operandsOf? ops s' = o' at hoperands
      cases hoperands with
      | none => exact concur_none
      | some hq => exact hlist _ _ ⟨hq.ops, hq.left, hq.base, hq.right⟩
  | map ops es base =>
    rw [hn] at hpart hkeys
    generalize s.node = m, s'.node = n at halike
    cases halike with
    | map hes hb =>
      dsimp only
      refine .ite (fun _ => ?_) fun _ => concur_none
      have hps : MapParts.Holds Term.HasGroundKeys ⟨ops, es, base⟩ := MapParts.holds_iff.mpr hpart
      exact concur_mapEntries hgo ops hb hps.base
        (fun e he => ⟨List.all_eq_true.mp hkeys e he, hps.values e he⟩) hes h
    | _ => exact concur_none
  | set ops es base =>
    rw [hn] at hpart hkeys
    generalize s.node = m, s'.node = n at halike
    cases halike with
    | set hes hb =>
      dsimp only
      refine .ite (fun _ => ?_) fun _ => concur_none
      exact concur_setElements hgo hdeeper ops hb (fun t ht => hpart t (List.mem_append_right _ ht))
        (fun e he => ⟨List.all_eq_true.mp hkeys e he, hpart e (List.mem_append_left _ he)⟩) hes h
    | _ => exact concur_none
  | cells cs frames =>
    rw [hn] at hpart
    generalize s.node = m, s'.node = n at halike
    cases halike with
    | cells hcs =>
      refine concur_cells hgo _ frames (fun c hc => hpart _ (List.mem_map_of_mem hc)) ?_ h
      refine List.forall₂_iff_get.mpr ⟨?_, fun i hi hi' => ?_⟩
      · rw [List.length_mapIdx, List.length_mapIdx, hcs.length_eq]
      · rw [List.get_eq_getElem, List.get_eq_getElem, List.getElem_mapIdx, List.getElem_mapIdx]
        exact ⟨rfl, hcs.get _ _⟩
    | _ => exact concur_none
  | _ =>
    generalize s.node = m, s'.node = n at halike
    cases halike <;> exact concur_none

theorem determined_upTo (hdeeper : Determined deeper) : ∀ size, Determined (upTo deeper size)
  | 0 => fun _ _ _ _ _ _ _ _ => concur_none
  | size + 1 => determined_node (determined_upTo hdeeper size) hdeeper

theorem determined_below : ∀ size, Determined (below size)
  | 0 => fun _ _ _ _ _ _ _ _ => concur_none
  | size + 1 => fun p => determined_upTo (determined_below size) p.size p

/-- Whatever subject, a match of a pattern with ground keys ends, and its bindings depend on what the subject
says alone. -/
theorem concur_matchAll (hp : p.HasGroundKeys) (hs : s == s') :
    Concur (List.Forall₂ Substitution.Alike) (matchAll p s) (matchAll p s') := by
  have hempty : MatchState.Alike {} {} := ⟨.refl {}, rfl⟩
  have hfrom : Concur AllAlike (matchFrom p s {}) (matchFrom p s' {}) := by
    unfold matchFrom
    rw [Term.size_congr hs]
    exact determined_below s'.size p s s' {} {} hp hs hempty
  refine hfrom.bind fun sts sts' hsts => .pure ?_
  rw [List.forall₂_map_left_iff, List.forall₂_map_right_iff]
  exact hsts.imp fun _ _ h => h.substitution

end Matching

end RuleCompiler
