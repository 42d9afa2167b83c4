import RuleCompiler.Matching
import RuleCompiler.Proofs.PairedLists
import RuleCompiler.Proofs.Returns
import RuleCompiler.Proofs.Substitution

/-! # What a match says about pattern and subject

`Fits R σ p s` says how pattern and subject agree at their heads, with their parts related by
`R σ`. A match only gives substitutions under which the two fit, so a relation that holds whenever
pattern and subject fit in it holds of everything that is matched (`matchAll_induction`). -/

namespace RuleCompiler.Matching

open MonadAttach (CanReturn)

/-! ### Variables -/

/-- The variable stands for the subject. -/
def Bound (σ : Substitution) (v : Var) (s : Term) : Prop :=
  s.sort.subsortOf v.sort ∧ (v.isDontCare ∨ ∃ t, σ.get? v = some t ∧ t == s)

theorem Bound.mono {σ τ : Substitution} {v : Var} {s : Term} (hτ : τ.Extends σ)
    (h : Bound σ v s) : Bound τ v s :=
  ⟨h.1, h.2.imp_right fun ⟨t, ht, hts⟩ => ⟨t, hτ v t ht, hts⟩⟩

/-! ### Collections -/

section Collections
variable (R : Term → Term → Prop) (σ : Substitution)

/-- Sequence items against items of the subject, a segment against a run of them. -/
inductive SequenceFits (pFrame sFrame : Option Var) : List Term → List Term → Prop where
  | closed (hp : pFrame = none) (hs : sFrame = none) : SequenceFits pFrame sFrame [] []
  | frame {f : Var} {ss : List Term} {rest : Term} (hp : pFrame = some f)
      (hr : CanReturn (Term.sequenceFrom ss sFrame) rest) (hb : Bound σ f rest) :
      SequenceFits pFrame sFrame [] ss
  | lastSegment {p : Term} {v : Var} {ss : List Term} {rest : Term} (hv : segment? p = some v)
      (hp : pFrame = none) (hr : CanReturn (Term.sequenceFrom ss sFrame) rest)
      (hb : Bound σ v rest) : SequenceFits pFrame sFrame [p] ss
  | segment {p : Term} {v : Var} {ps front back : List Term} {run : Term}
      (hv : segment? p = some v) (hr : CanReturn (Term.sequenceFrom front none) run)
      (hb : Bound σ v run) (h : SequenceFits pFrame sFrame ps back) :
      SequenceFits pFrame sFrame (p :: ps) (front ++ back)
  | item {p s : Term} {ps ss : List Term} (hv : segment? p = none) (hs : R p s)
      (h : SequenceFits pFrame sFrame ps ss) : SequenceFits pFrame sFrame (p :: ps) (s :: ss)

/-- The unknown middle of a list pattern against known items. -/
inductive MiddleFits (ops : CollectionOps) : List Term → List Term → Prop where
  | nil : MiddleFits ops [] []
  | run {b : Term} {ops' : CollectionOps} {items base right front back bases : List Term}
      (hb : b.node = .list ops' items base right) (hbase : base = [])
      (hi : List.Forall₂ R items front) (h : MiddleFits ops bases back) :
      MiddleFits ops (b :: bases) (front ++ back)
  | part {b chunk : Term} {front back bases : List Term}
      (hc : CanReturn (listOf ops front) chunk) (hb : R b chunk) (h : MiddleFits ops bases back) :
      MiddleFits ops (b :: bases) (front ++ back)

/-- Lists: part by part where the subject has unknown parts, otherwise items from both ends and the
unknown parts of the pattern against what is between them. -/
inductive ListFits (p s : ListParts) : Prop where
  | aligned (hl : List.Forall₂ R p.left s.left) (hb : List.Forall₂ R p.base s.base)
      (hr : List.Forall₂ R p.right s.right)
  | ends {left middle right : List Term} (hs : s.left = left ++ (middle ++ right))
      (hb : s.base = []) (hl : List.Forall₂ R p.left left) (hr : List.Forall₂ R p.right right)
      (hm : MiddleFits R p.ops p.base middle)

/-- What is left of a collection is the only unknown part of the pattern, or nothing. -/
inductive RestFits {α : Type} (R : α → Term → Prop) : List α → Term → Prop where
  | noEntries {r : Term} {ops : CollectionOps} (h : r.node = .map ops [] []) : RestFits R [] r
  | noElements {r : Term} {ops : CollectionOps} (h : r.node = .set ops [] []) : RestFits R [] r
  | noCells {r : Term} (h : r.node = .cells [] []) : RestFits R [] r
  | part {a : α} {r : Term} (h : R a r) : RestFits R [a] r

/-- Map entries, each against an entry not used before. -/
inductive EntriesFit (ops : CollectionOps) (sBase pBase : List Term) :
    List (Term × Term) → List (Term × Term) → Prop where
  | nil {unused : List (Term × Term)} {r : Term}
      (hr : CanReturn (sBase.foldl MapParts.concat { ops, entries := unused }).build r)
      (h : RestFits R pBase r) : EntriesFit ops sBase pBase [] unused
  | entry {key value key' : Term} {τ : Substitution} {e : Term × Term}
      {pending unused : List (Term × Term)} (he : e ∈ unused) (hτ : σ.Extends τ)
      (hk : CanReturn (τ.apply key) key') (hkey : key'.isGround ∧ e.1 == key' ∨ R key' e.1)
      (hv : R value e.2) (h : EntriesFit ops sBase pBase pending (SortedList.erase e.1 unused)) :
      EntriesFit ops sBase pBase ((key, value) :: pending) unused

/-- Set elements, each against an element not used before. -/
inductive ElementsFit (ops : CollectionOps) (sBase pBase : List Term) :
    List Term → List Term → Prop where
  | nil {unused : List Term} {r : Term}
      (hr : CanReturn (sBase.foldl SetParts.concat { ops, elements := unused }).build r)
      (h : RestFits R pBase r) : ElementsFit ops sBase pBase [] unused
  | element {element element' s : Term} {τ : Substitution} {pending unused : List Term}
      (hs : s ∈ unused) (hτ : σ.Extends τ) (he : CanReturn (τ.apply element) element')
      (hm : R element' s) (h : ElementsFit ops sBase pBase pending (unused.filter (· != s))) :
      ElementsFit ops sBase pBase (element :: pending) unused

/-- Cells, each against a cell of the same label not used before. -/
inductive CellsFit (sFrames pFrames : List Var) : List Cell → List (Nat × Cell) → Prop where
  | nil {unused : List (Nat × Cell)} {r : Term}
      (hr : CanReturn (CellParts.build ⟨unused.map (·.2), sFrames⟩) r)
      (h : RestFits (Bound σ) pFrames r) : CellsFit sFrames pFrames [] unused
  | cell {c : Cell} {u : Nat × Cell} {pending : List Cell} {unused : List (Nat × Cell)}
      (hu : u ∈ unused) (hl : u.2.label = c.label) (hc : R c.content u.2.content)
      (h : CellsFit sFrames pFrames pending (unused.filter (·.1 != u.1))) :
      CellsFit sFrames pFrames (c :: pending) unused

end Collections

section Imp
variable {R S : Term → Term → Prop} {σ : Substitution}

theorem SequenceFits.imp_mem {pFrame sFrame : Option Var} {ps ss : List Term}
    (h : SequenceFits R σ pFrame sFrame ps ss) (hRS : ∀ p ∈ ps, ∀ s ∈ ss, R p s → S p s) :
    SequenceFits S σ pFrame sFrame ps ss := by
  induction h with
  | closed hp hs => exact .closed hp hs
  | frame hp hr hb => exact .frame hp hr hb
  | lastSegment hv hp hr hb => exact .lastSegment hv hp hr hb
  | segment hv hr hb _ ih =>
    refine .segment hv hr hb (ih fun p hp s hs => hRS p (List.mem_cons_of_mem _ hp) s ?_)
    exact List.mem_append_right _ hs
  | item hv hps _ ih =>
    refine .item hv (hRS _ List.mem_cons_self _ List.mem_cons_self hps) (ih fun p hp s hs => ?_)
    exact hRS p (List.mem_cons_of_mem _ hp) s (List.mem_cons_of_mem _ hs)

theorem CellsFit.imp_mem {sFrames pFrames : List Var} {cs : List Cell} {unused : List (Nat × Cell)}
    (h : CellsFit R σ sFrames pFrames cs unused)
    (hRS : ∀ c ∈ cs, ∀ u ∈ unused, R c.content u.2.content → S c.content u.2.content) :
    CellsFit S σ sFrames pFrames cs unused := by
  induction h with
  | nil hr h => exact .nil hr h
  | cell hu hl hc _ ih =>
    refine .cell hu hl (hRS _ List.mem_cons_self _ hu hc) (ih fun c hc u hu => ?_)
    exact hRS c (List.mem_cons_of_mem _ hc) u (List.mem_of_mem_filter hu)

variable (hRS : ∀ p s, R p s → S p s)
include hRS

theorem MiddleFits.imp {ops : CollectionOps} {bases items : List Term} (h : MiddleFits R ops bases items) :
    MiddleFits S ops bases items := by
  induction h with
  | nil => exact .nil
  | run hb hbase hi _ ih => exact .run hb hbase (hi.imp hRS) ih
  | part hc hb _ ih => exact .part hc (hRS _ _ hb) ih

theorem ListFits.imp {p s : ListParts} (h : ListFits R p s) : ListFits S p s := by
  cases h with
  | aligned hl hb hr => exact .aligned (hl.imp hRS) (hb.imp hRS) (hr.imp hRS)
  | ends hs hb hl hr hm => exact .ends hs hb (hl.imp hRS) (hr.imp hRS) (hm.imp hRS)

theorem RestFits.imp {bases : List Term} {r : Term} (h : RestFits R bases r) : RestFits S bases r := by
  cases h with
  | noEntries h => exact .noEntries h
  | noElements h => exact .noElements h
  | noCells h => exact .noCells h
  | part h => exact .part (hRS _ _ h)

theorem EntriesFit.imp {ops : CollectionOps} {sBase pBase : List Term} {es unused : List (Term × Term)}
    (h : EntriesFit R σ ops sBase pBase es unused) : EntriesFit S σ ops sBase pBase es unused := by
  induction h with
  | nil hr h => exact .nil hr (h.imp hRS)
  | entry he hτ hk hkey hv _ ih => exact .entry he hτ hk (hkey.imp_right (hRS _ _)) (hRS _ _ hv) ih

theorem ElementsFit.imp {ops : CollectionOps} {sBase pBase es unused : List Term}
    (h : ElementsFit R σ ops sBase pBase es unused) : ElementsFit S σ ops sBase pBase es unused := by
  induction h with
  | nil hr h => exact .nil hr (h.imp hRS)
  | element hs hτ he hm _ ih => exact .element hs hτ he (hRS _ _ hm) ih

end Imp

/-- A term read as a list of the operator `ops`. -/
def listView? (ops : CollectionOps) (s : Term) : Option ListParts :=
  match s.node with
  | .list ops left base right => some { ops, left, base, right }
  | _ => operandsOf? ops s

/-- How pattern and subject agree at their heads. -/
inductive Fits (R : Substitution → Term → Term → Prop) (σ : Substitution) (p s : Term) : Prop where
  | same (hp : p.isGround) (h : p == s)
  | var {v : Var} (hp : p.node = .var v) (h : Bound σ v s)
  | rewrite {l r : Term} (hp : p.node = .rewrite l r) (h : R σ l s)
  | disjunction {bs : List Term.Branch} {b : Term.Branch} (hp : p.node = .disjunction bs)
      (hb : b ∈ bs) (h : R σ b.1 s)
  | app {l : String} {ps ss : List Term} {ks kp : SortName} (hp : p.node = .app (.const l) ps kp)
      (hs : s.node = .app (.const l) ss ks) (h : List.Forall₂ (R σ) ps ss)
  | freezer {f g : Term} {ps ss : List Term} {ks kp : SortName}
      (hp : p.node = .app (.freezer f) ps kp) (hs : s.node = .app (.freezer g) ss ks)
      (hf : R σ f g) (h : List.Forall₂ (R σ) ps ss)
  | sequence {items : List Term} {frame : Option Var} (hp : p.node = .seq items frame)
      (h : SequenceFits (R σ) σ frame (sequenceView s).2 items (sequenceView s).1)
  | list {ops : CollectionOps} {left base right : List Term} {parts : ListParts}
      (hp : p.node = .list ops left base right) (hs : listView? ops s = some parts)
      (ho : parts.ops = ops) (h : ListFits (R σ) { ops, left, base, right } parts)
  | map {ops : CollectionOps} {es es' : List (Term × Term)} {base base' : List Term}
      (hp : p.node = .map ops es base) (hs : s.node = .map ops es' base')
      (h : EntriesFit (R σ) σ ops base' base es es')
  | set {ops : CollectionOps} {es es' base base' : List Term} (hp : p.node = .set ops es base)
      (hs : s.node = .set ops es' base') (h : ElementsFit (R σ) σ ops base' base es es')
  | cells {cs cs' : List Cell} {fs fs' : List Var} (hp : p.node = .cells cs fs)
      (hs : s.node = .cells cs' fs')
      (h : CellsFit (R σ) σ fs' fs cs (cs'.mapIdx fun i c => (i, c)))

theorem Fits.imp {R S : Substitution → Term → Term → Prop} {σ : Substitution} {p s : Term} (h : Fits R σ p s)
    (hRS : ∀ p s, R σ p s → S σ p s) : Fits S σ p s := by
  cases h with
  | same hp h => exact .same hp h
  | var hp h => exact .var hp h
  | rewrite hp h => exact .rewrite hp (hRS _ _ h)
  | disjunction hp hb h => exact .disjunction hp hb (hRS _ _ h)
  | app hp hs h => exact .app hp hs (h.imp hRS)
  | freezer hp hs hf h => exact .freezer hp hs (hRS _ _ hf) (h.imp hRS)
  | sequence hp h => exact .sequence hp (h.imp_mem fun _ _ _ _ => hRS _ _)
  | list hp hs ho h => exact .list hp hs ho (h.imp hRS)
  | map hp hs h => exact .map hp hs (h.imp hRS)
  | set hp hs h => exact .set hp hs (h.imp hRS)
  | cells hp hs h => exact .cells hp hs (h.imp_mem fun _ _ _ _ => hRS _ _)

/-! ### One level of a match -/

theorem mem_splits {α : Type} {l front back : List α} (h : (front, back) ∈ splits l) :
    front ++ back = l := by
  obtain ⟨n, -, hn⟩ := List.mem_map.mp h
  rw [List.splitAt_eq] at hn
  cases hn
  exact List.take_append_drop n l

theorem mem_splits_append {α : Type} (front back : List α) : (front, back) ∈ splits (front ++ back) := by
  refine List.mem_map.mpr ⟨front.length, List.mem_range.mpr ?_, ?_⟩
  · rw [List.length_append]
    omega
  · rw [List.splitAt_eq, List.take_left, List.drop_left]

theorem segment?_eq {p : Term} {v : Var} (h : segment? p = some v) : p.node = .var v := by
  rw [segment?, Option.filter_eq_some_iff] at h
  unfold Term.asVar? at h
  split at h <;> simp_all

/-- Every state extends the first one and satisfies `X`. -/
def Reaches (st : MatchState) (X : Substitution → Prop) (sts : List MatchState) : Prop :=
  ∀ st' ∈ sts, st'.substitution.Extends st.substitution ∧ X st'.substitution

/-- What a matcher answers to is in the relation. -/
def Forces (R : Substitution → Term → Term → Prop) (go : Matcher) : Prop :=
  ∀ p s st, Returns (Reaches st fun σ => R σ p s) (go p s st)

/-- More bindings do not end the relation. -/
def Stable (R : Substitution → Term → Term → Prop) : Prop :=
  ∀ σ τ p s, τ.Extends σ → R σ p s → R τ p s

section Helpers
variable {R : Substitution → Term → Term → Prop} {go deeper : Matcher} {st : MatchState}
  {X Y : Substitution → Prop}

theorem reaches_nil : Reaches st X [] := List.forall_mem_nil _

theorem reaches_single (h : X st.substitution) : Reaches st X [st] :=
  List.forall_mem_singleton.mpr ⟨.refl _, h⟩

theorem Reaches.imp {sts : List MatchState} (h : Reaches st X sts) (hXY : ∀ σ, X σ → Y σ) :
    Reaches st Y sts :=
  fun st' hst' => ⟨(h st' hst').1, hXY _ (h st' hst').2⟩

/-- What stays true of the first state may be used for all of them. -/
theorem Reaches.extend {sts : List MatchState} (h : Reaches st X sts)
    (hXY : ∀ σ, σ.Extends st.substitution → X σ → Y σ) : Reaches st Y sts :=
  fun st' hst' => ⟨(h st' hst').1, hXY _ (h st' hst').1 (h st' hst').2⟩

theorem reaches_flatMapM {α : Type} {l : List α} {f : α → Build (List MatchState)}
    (h : ∀ a ∈ l, Returns (Reaches st X) (f a)) : Returns (Reaches st X) (l.flatMapM f) :=
  .flatMapM_all h

/-- Going on from every state. -/
theorem Reaches.flatMapM {sts : List MatchState} {f : MatchState → Build (List MatchState)}
    (h : Reaches st X sts) (hf : ∀ st' ∈ sts, X st'.substitution → Returns (Reaches st' Y) (f st')) :
    Returns (Reaches st Y) (sts.flatMapM f) := by
  refine .flatMapM_all fun st' hst' => ?_
  obtain ⟨he, hX⟩ := h st' hst'
  exact (hf st' hst' hX).mono fun _ h st'' hst'' => ⟨(h st'' hst'').1.trans he, (h st'' hst'').2⟩

theorem bind_reaches (v : Var) (s : Term) (st : MatchState) :
    Reaches st (fun σ => Bound σ v s) (bind v s st) := by
  unfold bind
  split
  · exact reaches_nil
  · rename_i hsort
    have hsort : s.sort.subsortOf v.sort := by simpa using hsort
    split
    · rename_i hv
      exact reaches_single ⟨hsort, .inl hv⟩
    · intro st' hst'
      obtain ⟨σ, hσ, rfl⟩ := Option.map_eq_some_iff.mp (Option.mem_toList.mp hst')
      exact ⟨Substitution.bind?_extends hσ, hsort, .inr (Substitution.bind?_get? hσ)⟩

theorem pairs_reaches (hR : Stable R) (hgo : Forces R go) :
    ∀ {es : List (Term × Term)} {sts : List MatchState} {X : Substitution → Prop},
      (∀ {σ τ}, τ.Extends σ → X σ → X τ) → Reaches st X sts →
      Returns (Reaches st fun σ => X σ ∧ ∀ e ∈ es, R σ e.1 e.2) (pairs go es sts)
  | [], sts, X, _, h => by
    rw [pairs]
    exact .pure (h.imp fun _ hX => ⟨hX, List.forall_mem_nil _⟩)
  | (p, s) :: es, [], _, _, h => by
    rw [pairs]
    · exact .pure reaches_nil
    · simp
  | (p, s) :: es, st' :: sts, X, hX, h => by
    have hnext : Returns (Reaches st fun σ => X σ ∧ R σ p s) ((st' :: sts).flatMapM (go p s)) :=
      h.flatMapM fun u _ hu => (hgo p s u).mono fun _ hs v hv =>
        ⟨(hs v hv).1, hX (hs v hv).1 hu, (hs v hv).2⟩
    rw [pairs]
    · refine hnext.bind fun sts hsts => ?_
      refine (pairs_reaches hR hgo (fun hτ h => ⟨hX hτ h.1, hR _ _ _ _ hτ h.2⟩) hsts).mono fun _ h => ?_
      exact h.imp fun σ ⟨⟨hX, hps⟩, hes⟩ => ⟨hX, List.forall_mem_cons.mpr ⟨hps, hes⟩⟩
    · simp

/-- Parts matched pairwise from one state. -/
theorem pairs_single (hR : Stable R) (hgo : Forces R go) (es : List (Term × Term))
    (st : MatchState) : Returns (Reaches st fun σ => ∀ e ∈ es, R σ e.1 e.2) (pairs go es [st]) :=
  (pairs_reaches hR hgo (X := fun _ => True) (fun _ h => h) (reaches_single trivial)).mono
    fun _ h => h.imp fun _ h => h.2

theorem sequence_reaches (hR : Stable R) (hgo : Forces R go) (pFrame sFrame : Option Var) :
    ∀ (ps ss : List Term) (st : MatchState),
      Returns (Reaches st fun σ => SequenceFits (R σ) σ pFrame sFrame ps ss)
        (sequence go pFrame sFrame ps ss st)
  | [], ss, st => by
    rw [sequence.eq_def]
    dsimp only
    split
    · refine (Returns.self _).bind fun rest hrest => .pure ?_
      exact (bind_reaches _ rest st).imp fun σ hb => .frame rfl hrest hb
    · split
      · rename_i h
        simp only [Bool.and_eq_true, List.isEmpty_iff, Option.isNone_iff_eq_none] at h
        obtain ⟨rfl, rfl⟩ := h
        exact .pure (reaches_single (.closed rfl rfl))
      · exact .pure reaches_nil
  | p :: ps, ss, st => by
    rw [sequence.eq_def]
    dsimp only
    split
    · rename_i v hv
      refine .ite (fun hlast => ?_) fun _ => ?_
      · simp only [Bool.and_eq_true, List.isEmpty_iff, Option.isNone_iff_eq_none] at hlast
        obtain ⟨rfl, rfl⟩ := hlast
        refine (Returns.self _).bind fun rest hrest => .pure ?_
        exact (bind_reaches v rest st).imp fun σ hb => .lastSegment hv rfl hrest hb
      · refine reaches_flatMapM fun ⟨front, back⟩ hsplit => ?_
        refine (Returns.self _).bind fun run hrun => (bind_reaches v run st).flatMapM fun st' _ hb => ?_
        refine (sequence_reaches hR hgo pFrame sFrame ps back st').mono fun _ h => ?_
        rw [← mem_splits hsplit]
        exact h.extend fun σ hσ hrest => .segment hv hrun (hb.mono hσ) hrest
    · split
      · exact .pure reaches_nil
      · rename_i hv _ s ss
        refine (hgo p s st).bind fun sts hsts => hsts.flatMapM fun st' _ hp => ?_
        refine (sequence_reaches hR hgo pFrame sFrame ps ss st').mono fun _ h => ?_
        exact h.extend fun σ hσ hrest => .item hv (hR _ _ _ _ hσ hp) hrest

theorem listMiddle_reaches (hR : Stable R) (hgo : Forces R go) (ops : CollectionOps) :
    ∀ (bases items : List Term) (st : MatchState),
      Returns (Reaches st fun σ => MiddleFits (R σ) ops bases items) (listMiddle go ops bases items st)
  | [], items, st => by
    rw [listMiddle]
    split
    · rename_i h
      rw [List.isEmpty_iff.mp h]
      exact .pure (reaches_single .nil)
    · exact .pure reaches_nil
  | b :: bases, items, st => by
    rw [listMiddle]
    split
    · rename_i run base right hb
      refine .ite (fun h => ?_) fun _ => .pure reaches_nil
      rw [Bool.and_eq_true, decide_eq_true_eq, List.isEmpty_iff] at h
      refine (pairs_single hR hgo _ st).bind fun sts hsts => hsts.flatMapM fun st' _ hrun => ?_
      refine (listMiddle_reaches hR hgo ops bases (items.drop run.length) st').mono fun _ hrest => ?_
      refine hrest.extend fun σ hσ hm => ?_
      have hfront : List.Forall₂ (R σ) run (items.take run.length) := by
        refine PairedLists.of_zip (by rw [List.length_take]; omega) fun e he =>
          hR _ _ _ _ hσ (hrun e ?_)
        rw [List.zip_eq_zip_take_min, Nat.min_eq_left h.2, List.take_length]
        exact he
      have hfits := MiddleFits.run hb h.1 hfront hm
      rwa [List.take_append_drop] at hfits
    · refine reaches_flatMapM fun ⟨front, back⟩ hsplit => ?_
      have happend : front ++ back = items := by
        split at hsplit
        · cases List.mem_singleton.mp hsplit
          exact List.append_nil _
        · exact mem_splits hsplit
      refine (Returns.self _).bind fun chunk hchunk => (hgo b chunk st).bind fun sts hsts => ?_
      refine hsts.flatMapM fun st' _ hb => ?_
      refine (listMiddle_reaches hR hgo ops bases back st').mono fun _ hrest => ?_
      rw [← happend]
      exact hrest.extend fun σ hσ hm => .part hchunk (hR _ _ _ _ hσ hb) hm

theorem list_reaches (hR : Stable R) (hgo : Forces R go) (p s : ListParts) (st : MatchState) :
    Returns (Reaches st fun σ => ListFits (R σ) p s) (list go p s st) := by
  unfold list
  refine .ite (fun _ => .ite (fun h => ?_) fun _ => .pure reaches_nil) fun hbase => ?_
  · simp only [Bool.and_eq_true, decide_eq_true_eq] at h
    refine (pairs_single hR hgo _ st).mono fun _ hp => hp.imp fun σ hp => ?_
    simp only [List.forall_mem_append] at hp
    exact .aligned (PairedLists.of_zip h.1.1 hp.1.1) (PairedLists.of_zip h.2 hp.1.2)
      (PairedLists.of_zip h.1.2 hp.2)
  · refine .ite (fun _ => .pure reaches_nil) fun h => ?_
    simp only [Bool.or_eq_true, decide_eq_true_eq, Bool.and_eq_true, bne_iff_ne, not_or,
      Nat.not_lt] at h
    have hlen := h.1
    refine (pairs_single hR hgo _ st).bind fun sts hsts => hsts.flatMapM fun st' _ hp => ?_
    refine (listMiddle_reaches hR hgo p.ops p.base _ st').mono fun _ hm => hm.extend fun σ hσ hm => ?_
    simp only [List.forall_mem_append] at hp
    have hmiddle : s.left.take p.left.length ++
        (((s.left.drop p.left.length).take (s.left.length - p.right.length - p.left.length)) ++
          s.left.drop (s.left.length - p.right.length)) = s.left := by
      rw [show s.left.length - p.right.length =
        p.left.length + (s.left.length - p.right.length - p.left.length) by omega, ← List.drop_drop,
        Nat.add_sub_cancel_left, List.take_append_drop, List.take_append_drop]
    refine .ends hmiddle.symm (by simpa using hbase) (PairedLists.of_zip ?_ fun e he => ?_)
      (PairedLists.of_zip ?_ fun e he => hR _ _ _ _ hσ (hp.2 e he)) hm
    · rw [List.length_take]
      omega
    · refine hR _ _ _ _ hσ (hp.1 e ?_)
      rw [List.zip_eq_zip_take_min, Nat.min_eq_left (by omega), List.take_length]
      exact he
    · rw [List.length_drop]
      omega

theorem rest_reaches {α : Type} {go : α → Term → MatchState → Build (List MatchState)}
    {S : Substitution → α → Term → Prop}
    (hgo : ∀ a s st, Returns (Reaches st fun σ => S σ a s) (go a s st)) (bases : List α)
    (r : Term) (st : MatchState) :
    Returns (Reaches st fun σ => RestFits (S σ) bases r) (rest go bases r st) := by
  unfold rest
  split
  · split
    · exact .pure (reaches_single (.noEntries ‹_›))
    · exact .pure (reaches_single (.noElements ‹_›))
    · exact .pure (reaches_single (.noCells ‹_›))
    · exact .pure reaches_nil
  · exact (hgo _ r st).mono fun _ h => h.imp fun _ => .part
  · exact .pure reaches_nil

theorem mapEntries_reaches (hR : Stable R) (hgo : Forces R go) (hdeeper : Forces R deeper)
    (ops : CollectionOps) (sBase pBase : List Term) :
    ∀ (pending unused : List (Term × Term)) (st : MatchState),
      Returns (Reaches st fun σ => EntriesFit (R σ) σ ops sBase pBase pending unused)
        (mapEntries go deeper ops sBase pBase pending unused st)
  | [], unused, st => by
    rw [mapEntries]
    refine (Returns.self _).bind fun r hr => (rest_reaches hgo pBase r st).mono fun _ h => ?_
    exact h.imp fun _ h => .nil hr h
  | (key, value) :: pending, unused, st => by
    rw [mapEntries]
    refine (Returns.self _).bind fun key' hk => ?_
    have hnext (e : Term × Term) (he : e ∈ unused) (st' : MatchState)
        (hst' : st'.substitution.Extends st.substitution)
        (hkey : key'.isGround ∧ e.1 == key' ∨ R st'.substitution key' e.1) :
        Returns (Reaches st' fun σ =>
            EntriesFit (R σ) σ ops sBase pBase ((key, value) :: pending) unused) (do
          (← go value e.2 st').flatMapM
            (mapEntries go deeper ops sBase pBase pending (SortedList.erase e.1 unused))) := by
      refine (hgo value e.2 st').bind fun sts hsts => ?_
      have hsts : Reaches st' (fun σ => σ.Extends st'.substitution ∧ R σ value e.2) sts :=
        hsts.extend fun σ hσ h => ⟨hσ, h⟩
      refine hsts.flatMapM fun u _ hu => ?_
      refine (mapEntries_reaches hR hgo hdeeper ops sBase pBase pending _ u).mono fun _ h => ?_
      refine h.extend fun σ hσ h => ?_
      refine .entry he ((hσ.trans hu.1).trans hst') hk ?_ (hR _ _ _ _ hσ hu.2) h
      exact hkey.imp_right (hR _ _ _ _ (hσ.trans hu.1))
    refine .ite (fun hg => reaches_flatMapM fun e he => ?_) fun _ => reaches_flatMapM fun e he => ?_
    · obtain ⟨he, hek⟩ := List.mem_filter.mp he
      exact hnext e he st (.refl _) (.inl ⟨hg, hek⟩)
    · refine (hdeeper key' e.1 st).bind fun sts hsts => ?_
      have hsts : Reaches st (fun σ => σ.Extends st.substitution ∧ R σ key' e.1) sts :=
        hsts.extend fun σ hσ h => ⟨hσ, h⟩
      exact hsts.flatMapM fun u _ hu => hnext e he u hu.1 (.inr hu.2)

theorem setElements_reaches (hR : Stable R) (hdeeper : Forces R deeper) (hgo : Forces R go)
    (ops : CollectionOps) (sBase pBase : List Term) :
    ∀ (pending unused : List Term) (st : MatchState),
      Returns (Reaches st fun σ => ElementsFit (R σ) σ ops sBase pBase pending unused)
        (setElements go deeper ops sBase pBase pending unused st)
  | [], unused, st => by
    rw [setElements]
    refine (Returns.self _).bind fun r hr => (rest_reaches hgo pBase r st).mono fun _ h => ?_
    exact h.imp fun _ h => .nil hr h
  | element :: pending, unused, st => by
    rw [setElements]
    refine (Returns.self _).bind fun element' he => reaches_flatMapM fun s hs => ?_
    refine (hdeeper element' s st).bind fun sts hsts => ?_
    have hsts : Reaches st (fun σ => σ.Extends st.substitution ∧ R σ element' s) sts :=
      hsts.extend fun σ hσ h => ⟨hσ, h⟩
    refine hsts.flatMapM fun u _ hu => ?_
    refine (setElements_reaches hR hdeeper hgo ops sBase pBase pending _ u).mono fun _ h => ?_
    refine h.extend fun σ hσ h => ?_
    exact .element (List.mem_filter.mp hs).1 (hσ.trans hu.1) he (hR _ _ _ _ hσ hu.2) h

theorem cells_reaches (hR : Stable R) (hgo : Forces R go) (sFrames pFrames : List Var) :
    ∀ (pending : List Cell) (unused : List (Nat × Cell)) (st : MatchState),
      Returns (Reaches st fun σ => CellsFit (R σ) σ sFrames pFrames pending unused)
        (cells go sFrames pFrames pending unused st)
  | [], unused, st => by
    rw [cells]
    refine (Returns.self _).bind fun r hr => ?_
    refine (rest_reaches (S := Bound) (fun v s st => .pure (bind_reaches v s st)) pFrames r st).mono
      fun _ h => h.imp fun _ h => .nil hr h
  | c :: pending, unused, st => by
    rw [cells]
    refine reaches_flatMapM fun u hu => ?_
    obtain ⟨hu, hl⟩ := List.mem_filter.mp hu
    refine (hgo _ _ st).bind fun sts hsts => hsts.flatMapM fun st' _ hc => ?_
    refine (cells_reaches hR hgo sFrames pFrames pending _ st').mono fun _ h => ?_
    exact h.extend fun σ hσ h => .cell hu (beq_iff_eq.mp hl) (hR _ _ _ _ hσ hc) h

theorem mem_candidateBranches {subject : Term} {b : Term.Branch} {bs : List Term.Branch}
    (h : b ∈ Term.candidateBranches subject bs) : b ∈ bs := by
  induction bs with
  | nil => cases h
  | cons c bs ih =>
    unfold Term.candidateBranches at h
    dsimp only at h
    split at h
    · exact List.mem_cons.mpr ((List.mem_cons.mp h).imp_right ih)
    · exact List.mem_cons_of_mem c (ih h)

/-- One level of a match: pattern and subject fit. -/
theorem node_reaches (hR : Stable R) (hgo : Forces R go) (hdeeper : Forces R deeper)
    (p s : Term) (st : MatchState) :
    Returns (Reaches st fun σ => Fits R σ p s) (node go deeper p s st) := by
  unfold node
  refine .ite (fun hg => ?_) fun _ => ?_
  · simp only [Bool.and_eq_true] at hg
    split
    · rename_i h
      exact .pure (reaches_single (.same hg.1.1 h))
    · exact .pure reaches_nil
  split
  · rename_i hp
    exact .pure ((bind_reaches _ s st).imp fun _ h => .var hp h)
  · rename_i hp
    exact (hgo _ s st).mono fun _ h => h.imp fun _ h => .rewrite hp h
  · rename_i hp
    refine reaches_flatMapM fun b hb => .ite (fun _ => .pure reaches_nil) fun _ => ?_
    refine (hgo b.1 s _).mono fun sts (h : Reaches st (fun σ => R σ b.1 s) sts) => ?_
    exact h.imp fun _ h => .disjunction hp (mem_candidateBranches hb) h
  · rename_i hp hs
    refine .ite (fun h => ?_) fun _ => .pure reaches_nil
    rw [Bool.and_eq_true, decide_eq_true_eq, decide_eq_true_eq] at h
    obtain ⟨rfl, hl⟩ := h
    refine (pairs_single hR hgo _ st).mono fun _ h => h.imp fun _ h => ?_
    exact .app hp hs (PairedLists.of_zip hl h)
  · rename_i hp hs
    refine .ite (fun hl => ?_) fun _ => .pure reaches_nil
    refine (hgo _ _ st).bind fun sts hsts => hsts.flatMapM fun st' _ hf => ?_
    refine (pairs_single hR hgo _ st').mono fun _ h => h.extend fun σ hσ h => ?_
    exact .freezer hp hs (hR _ _ _ _ hσ hf) (PairedLists.of_zip hl h)
  · rename_i hp
    exact (sequence_reaches hR hgo _ _ _ _ st).mono fun _ h => h.imp fun _ h => .sequence hp h
  · rename_i ops left base right hp
    have hview (parts : ListParts) (hs : listView? ops s = some parts) :
        Returns (Reaches st fun σ => Fits R σ p s)
          (if parts.ops = ops then list go { ops, left, base, right } parts st else pure []) := by
      refine .ite (fun ho => ?_) fun _ => .pure reaches_nil
      exact (list_reaches hR hgo _ parts st).mono fun _ h => h.imp fun _ h => .list hp hs ho h
    split
    · rename_i hs
      exact hview _ (by rw [listView?, hs])
    · rename_i hs
      dsimp only
      split
      · rename_i hparts
        refine hview _ ?_
        rw [← hparts, listView?]
        split
        · exact absurd ‹_› (hs _ _ _ _)
        · rfl
      · exact .pure reaches_nil
  · rename_i hp hs
    refine .ite (fun ho => ?_) fun _ => .pure reaches_nil
    subst ho
    exact (mapEntries_reaches hR hgo hdeeper _ _ _ _ _ st).mono fun _ h => h.imp fun _ h => .map hp hs h
  · rename_i hp hs
    refine .ite (fun ho => ?_) fun _ => .pure reaches_nil
    subst ho
    exact (setElements_reaches hR hdeeper hgo _ _ _ _ _ st).mono fun _ h => h.imp fun _ h => .set hp hs h
  · rename_i hp hs
    exact (cells_reaches hR hgo _ _ _ _ st).mono fun _ h => h.imp fun _ h => .cells hp hs h
  · exact .pure reaches_nil

/-- Whether the pattern is only compared with the subject. -/
def isCompared (p : Term) : Bool := p.isGround && !p.hasRewrite && !p.hasDisjunction

theorem isGround_of_isCompared {p : Term} (h : isCompared p) : p.isGround := by
  simp only [isCompared, Bool.and_eq_true] at h
  exact h.1.1

theorem node_compares {p : Term} (hp : isCompared p) (s : Term) (st : MatchState) :
    node go deeper p s st = pure (if p == s then [st] else []) := by
  unfold node
  rw [isCompared] at hp
  rw [if_pos hp]

theorem node_var {p s : Term} {st : MatchState} (hground : ¬p.isGround) {v : Var}
    (hn : p.node = .var v) : node go deeper p s st = pure (bind v s st) := by
  unfold node
  rw [if_neg (by simp [hground]), hn]

theorem node_compared (p s : Term) (st : MatchState) :
    Returns (fun sts => sts ≠ [] → isCompared p → p == s) (node go deeper p s st) := by
  by_cases hp : isCompared p
  · rw [node_compares hp]
    refine .pure fun hne _ => ?_
    split at hne
    · assumption
    · exact absurd rfl hne
  · exact (Returns.trivial _).mono fun _ _ _ hp' => absurd hp' hp

end Helpers

/-! ### The whole match -/

section Induction
variable {R : Substitution → Term → Term → Prop}

theorem upTo_forces (hR : Stable R)
    (h : ∀ σ p s, Fits R σ p s → (isCompared p → p == s) → R σ p s) {deeper : Matcher}
    (hdeeper : Forces R deeper) : ∀ n, Forces R (upTo deeper n)
  | 0 => fun _ _ _ => .pure reaches_nil
  | n + 1 => fun p s st => by
    have hfits := node_reaches hR (upTo_forces hR h hdeeper n) hdeeper p s st
    refine (hfits.and (node_compared p s st)).mono fun sts ⟨hsts, heq⟩ st' hst' => ?_
    obtain ⟨hext, hfit⟩ := hsts st' hst'
    exact ⟨hext, h _ p s hfit (heq (List.ne_nil_of_mem hst'))⟩

theorem below_forces (hR : Stable R)
    (h : ∀ σ p s, Fits R σ p s → (isCompared p → p == s) → R σ p s) : ∀ n, Forces R (below n)
  | 0 => fun _ _ _ => .pure reaches_nil
  | n + 1 => fun p => upTo_forces hR h (below_forces hR h n) p.size p

/-- A relation that holds whenever pattern and subject fit in it holds of what is matched; a pattern
that is compared fits nothing but an equal subject. -/
theorem matchAll_induction_compared (hR : Stable R)
    (h : ∀ σ p s, Fits R σ p s → (isCompared p → p == s) → R σ p s) (p s : Term) :
    Returns (fun σs => ∀ σ ∈ σs, R σ p s) (matchAll p s) := by
  refine (below_forces hR h s.size p s {}).bind fun sts hsts => .pure fun σ hσ => ?_
  obtain ⟨st, hst, rfl⟩ := List.mem_map.mp hσ
  exact (hsts st hst).2

/-- A relation that holds whenever pattern and subject fit in it holds of what is matched. -/
theorem matchAll_induction (hR : Stable R) (h : ∀ σ p s, Fits R σ p s → R σ p s) (p s : Term) :
    Returns (fun σs => ∀ σ ∈ σs, R σ p s) (matchAll p s) :=
  matchAll_induction_compared hR (fun σ p s hfits _ => h σ p s hfits) p s

end Induction

end RuleCompiler.Matching
