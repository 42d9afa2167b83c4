import RuleCompiler.Pass.RewriteLifting
import RuleCompiler.Proofs.RewriteLifting.Sides

/-! # Lifted terms

Lifting makes a rewrite of everything outside of cells and of the content of each cell that has one in it.
A lifted group of cells is put in order by its lifted contents, its sides by the sides of these, so that
the sides of the term and of the lifted one are put together from the same cells in another order. -/

namespace RuleCompiler

open Build (Agree Always From Gives)
open MonadAttach (CanReturn)
open Term (Equal)

/-! ### Cells in another order -/

namespace CellParts
variable {multiplicity : String → Multiplicity} {cs ds : List Cell} {frames frames' : List Var}

theorem build_of_ne_nil (h : cs ≠ []) : build ⟨cs, frames⟩ =
    Term.new (.cells (SortedList.sort compareCells cs) (SortedList.sort compareFrames frames)) := by
  unfold build
  split
  · exact absurd ‹_› h
  · rfl

/-- The same cells in another order make equal groups. -/
theorem agree_build_perm (hcs : ∀ c ∈ cs, c.multiplicity = multiplicity c.label)
    (hds : ∀ d ∈ ds, d.multiplicity = multiplicity d.label) (h : (cs.map cellCode).Perm (ds.map cellCode))
    (hframes : SortedList.sort compareFrames frames = SortedList.sort compareFrames frames') (hne : cs ≠ []) :
    Agree (fun t u : Term => t == u) (build ⟨cs, frames⟩) (build ⟨ds, frames'⟩) := by
  have hne' : ds ≠ [] := by
    rintro rfl
    exact hne (List.map_eq_nil_iff.mp (List.perm_nil.mp h))
  have hcodes : (SortedList.sort compareCells cs).map cellCode = (SortedList.sort compareCells ds).map cellCode := by
    have hsorted (cs : List Cell) :
        (SortedList.sort compareCells cs).Pairwise fun c d => (compareCells c d).isLE :=
      SortedList.sorted_sort cs
    refine SortedList.map_eq_of_perm (r := fun a b => (compareCodes a b).isLE) isLE_antisymm ?_
      (hsorted cs) (hsorted ds)
    exact ((SortedList.perm_sort cs).map _).trans (h.trans ((SortedList.perm_sort ds).map _).symm)
  have hpairs : List.Forall₂ (fun c d : Cell => cellCode c = cellCode d)
      (SortedList.sort compareCells cs) (SortedList.sort compareCells ds) :=
    PairedLists.of_map_eq (fun _ _ h => h) hcodes
  rw [build_of_ne_nil hne, build_of_ne_nil hne', hframes]
  refine Term.agree_new (.cells (PairedLists.imp_mem hpairs fun c hc d hd hcd => ?_))
  rw [cellCode, cellCode, Prod.mk.injEq] at hcd
  refine ⟨hcd.1, ?_, Term.beq_iff.mpr hcd.2⟩
  rw [hcs c (SortedList.mem_sort.mp hc), hds d (SortedList.mem_sort.mp hd), hcd.1]

instance : Std.TransCmp compareFrames :=
  inferInstanceAs (Std.TransCmp (compareLex (compareOn Var.name) (compareOn Var.id)))

end CellParts

namespace Side
variable {s : Side} {t u v : Term} {cs : List Cell} {frames : List Var}

/-- A cell whose content is the side of that of the other. -/
def IsCellSide (s : Side) (c e : Cell) : Prop :=
  e.label = c.label ∧ e.multiplicity = c.multiplicity ∧ IsSide s c.content e.content

/-- The side of a group of cells is made of the sides of the cells. -/
theorem IsSide.exists_cells (h : IsSide s t u) (hn : t.node = .cells cs frames) (hr : t.hasRewrite) :
    ∃ es v, List.Forall₂ (IsCellSide s) cs es ∧ CanReturn (CellParts.build ⟨es, frames⟩) v ∧ u == v := by
  cases h with
  | kept h => simp [h] at hr
  | side hn' => simp [hn] at hn'
  | @made _ _ v contents fs _ _ hcs hfs hv hu =>
    rw [Term.frames, hn] at hfs
    rw [Term.children, hn] at hcs
    rw [CellParts.rebuild_eq hn, Term.cellsFrom, CellParts.foldlM_concat_vars hfs, pure_bind] at hv
    refine ⟨_, v, ?_, hv, hu⟩
    rw [Node.children, List.forall₂_map_left_iff] at hcs
    clear hn hv hfs
    induction hcs with
    | nil => exact .nil
    | cons hc _ ih => exact .cons ⟨rfl, rfl, hc⟩ ih

/-- A term without rewrites is its own side. -/
theorem IsSide.beq_self (h : IsSide s t u) (ht : t.hasRewrite = false) : u == t := h.beq (.kept ht (BEq.refl t))

end Side

/-! ### Lifting -/

namespace Term

mutual

/-- The term `t'` is `t` with its rewrites lifted. -/
inductive Lifts : Term → Term → Prop where
  | rewrite {t l r : Term} (hn : t.node = .rewrite l r) : Lifts t t
  | cells {t t' : Term} {cs cs' : List Cell} {frames : List Var} (hn : t.node = .cells cs frames)
      (hcs : List.Forall₂ LiftsCell cs cs') (ht' : CanReturn (CellParts.build ⟨cs', frames⟩) t') : Lifts t t'
  | whole {t t' l r : Term} (hr : t.isRewrite = false) (hc : ∀ cs frames, t.node ≠ .cells cs frames)
      (hleft : Side.IsSide .left t l) (hright : Side.IsSide .right t r) (hl : l.hasRewrite = false)
      (hr' : r.hasRewrite = false) (hn : t'.node = .rewrite l r) : Lifts t t'

/-- A cell stays as it is, or its content is lifted. -/
inductive LiftsCell : Cell → Cell → Prop where
  | kept {c : Cell} (h : c.content.hasRewrite = false) : LiftsCell c c
  | lifted {c : Cell} {t' : Term} (h : c.content.hasRewrite) (ht' : Lifts c.content t') :
      LiftsCell c { c with content := t' }

end

variable {s : Side} {t t' u u' : Term}

theorem LiftsCell.label_eq {c c' : Cell} (h : LiftsCell c c') :
    c'.label = c.label ∧ c'.multiplicity = c.multiplicity := by
  cases h <;> exact ⟨rfl, rfl⟩

theorem node_of_build {cs : List Cell} {frames : List Var} (hne : cs ≠ [])
    (h : CanReturn (CellParts.build ⟨cs, frames⟩) t) : t.node =
      .cells (SortedList.sort CellParts.compareCells cs) (SortedList.sort CellParts.compareFrames frames) := by
  rw [CellParts.build_of_ne_nil hne] at h
  exact returns_new _ t h

theorem exists_cell_hasRewrite {cs : List Cell} {frames : List Var} (hn : t.node = .cells cs frames)
    (h : t.hasRewrite) : ∃ c ∈ cs, c.content.hasRewrite := by
  obtain ⟨c, hc, hr⟩ := exists_hasRewrite h (by rw [isRewrite, hn])
  rw [children, hn] at hc
  obtain ⟨cell, hcell, rfl⟩ := List.mem_map.mp hc
  exact ⟨cell, hcell, hr⟩

/-- A lifted term has a rewrite. -/
theorem Lifts.hasRewrite (ht : t.hasRewrite) (h : Lifts t t') : t'.hasRewrite := by
  induction t using Term.induction generalizing t' with
  | h t ih =>
    cases h with
    | rewrite => exact ht
    | whole _ _ _ _ _ _ hn => exact hasRewrite_of_isRewrite (by rw [isRewrite, hn])
    | @cells _ _ cs cs' frames hn hcs ht' =>
      obtain ⟨c, hc, hcr⟩ := exists_cell_hasRewrite hn ht
      obtain ⟨c', hc', hlift⟩ := PairedLists.exists_mem hcs hc
      have hcr' : c'.content.hasRewrite := by
        cases hlift with
        | kept h => exact hcr
        | lifted _ h => exact ih c.content (by rw [children, hn]; exact List.mem_map_of_mem hc) hcr h
      have hnode := node_of_build (List.ne_nil_of_mem hc') ht'
      by_contra hno
      have hchild := hasRewrite_child (c := c'.content) (by simpa using hno) (by
        rw [children, hnode]
        exact List.mem_map_of_mem (SortedList.mem_sort.mpr hc'))
      rw [hchild] at hcr'
      cases hcr'

/-! ### Sides of lifted terms -/

/-- Whether the cells of the term have the multiplicities that belong to their labels. -/
def HasMultiplicities (multiplicity : String → Multiplicity) (t : Term) : Prop :=
  t.everyNode fun u => match u.node with
    | .cells cs _ => cs.all fun c => c.multiplicity = multiplicity c.label
    | _ => true

instance (multiplicity : String → Multiplicity) (t : Term) : Decidable (t.HasMultiplicities multiplicity) :=
  inferInstanceAs (Decidable (_ = true))

variable {multiplicity : String → Multiplicity}

theorem HasMultiplicities.cells {cs : List Cell} {frames : List Var} (h : t.HasMultiplicities multiplicity)
    (hn : t.node = .cells cs frames) : ∀ c ∈ cs, c.multiplicity = multiplicity c.label := by
  have hnode := (everyNode_iff.mp h).1
  simpa [hn] using hnode

theorem HasMultiplicities.child {c : Term} (h : t.HasMultiplicities multiplicity) (hc : c ∈ t.children) :
    c.HasMultiplicities multiplicity :=
  (everyNode_iff.mp h).2.1 c hc

theorem multiplicity_of_isCellSide {cs es : List Cell} (h : List.Forall₂ (Side.IsCellSide s) cs es)
    (hcs : ∀ c ∈ cs, c.multiplicity = multiplicity c.label) :
    ∀ e ∈ es, e.multiplicity = multiplicity e.label := by
  intro e he
  obtain ⟨c, hc, hlabel, hmult, -⟩ := PairedLists.exists_mem h.flip he
  rw [hmult, hlabel, hcs c hc]

/-- A lifted term has the sides that the term has. -/
theorem Lifts.side_beq (hm : t.HasMultiplicities multiplicity) (ht : t.hasRewrite) (h : Lifts t t')
    (hu : Side.IsSide s t u) (hu' : Side.IsSide s t' u') : u == u' := by
  induction t using Term.induction generalizing t' u u' with
  | h t ih =>
    cases h with
    | rewrite => exact hu.beq hu'
    | @whole _ _ l r hr hc hleft hright hl hr' hn =>
      have hselect : u' == s.select l r := by
        cases hu' with
        | kept h => simp [hasRewrite_of_isRewrite (t := t') (by rw [isRewrite, hn])] at h
        | made _ h => simp [isRewrite, hn] at h
        | side hn' h =>
          cases hn.symm.trans hn'
          exact h.beq_self (by cases s <;> assumption)
      refine BEq.trans (hu.beq ?_) (BEq.symm hselect)
      cases s <;> assumption
    | @cells _ _ cs cs' frames hn hcs hbuild =>
      obtain ⟨c, hc, -⟩ := exists_cell_hasRewrite hn ht
      obtain ⟨c', hc', -⟩ := PairedLists.exists_mem hcs hc
      have hnode := node_of_build (List.ne_nil_of_mem hc') hbuild
      obtain ⟨es, v, hes, ⟨n, n', hrun⟩, huv⟩ := hu.exists_cells hn ht
      obtain ⟨es', v', hes', ⟨m, m', hrun'⟩, huv'⟩ :=
        hu'.exists_cells hnode ((Lifts.cells hn hcs hbuild).hasRewrite ht)
      -- the sides of the lifted cells, in the order of the cells of the term
      obtain ⟨ds, hds, hperm⟩ := List.perm_comp_forall₂ (SortedList.perm_sort cs').symm hes'
      have hcells := hm.cells hn
      have hcells' : ∀ c ∈ cs', c.multiplicity = multiplicity c.label := by
        intro d hd
        obtain ⟨c, hc, hlift⟩ := PairedLists.exists_mem hcs.flip hd
        rw [hlift.label_eq.1, hlift.label_eq.2, hcells c hc]
      have hlifted : List.Forall₂ (fun (e c : Cell) => c ∈ cs ∧ Side.IsCellSide s c e) es cs :=
        (PairedLists.imp_mem hes fun c hc _ _ h => ⟨hc, h⟩).flip
      have hcodes : es.map CellParts.cellCode = ds.map CellParts.cellCode := by
        refine PairedLists.map_eq (PairedLists.comp (fun e c d h (h' : ∃ c', LiftsCell c c' ∧ _) => ?_) hlifted
          (PairedLists.comp (fun c c' d h h' => ⟨c', h, h'⟩) hcs hds))
        obtain ⟨hc, hlabel, -, hside⟩ := h
        obtain ⟨c', hlift, hlabel', -, hside'⟩ := h'
        have hcontent : e.content == d.content := by
          cases hlift with
          | kept => exact hside.beq hside'
          | lifted hr hlift =>
            have hmem : c.content ∈ t.children := by
              rw [children, hn]
              exact List.mem_map_of_mem hc
            exact ih c.content hmem (hm.child hmem) hr hlift hside hside'
        rw [CellParts.cellCode, CellParts.cellCode, hlabel, hlabel', hlift.label_eq.1, beq_iff.mp hcontent]
      have hframes : SortedList.sort CellParts.compareFrames frames =
          SortedList.sort CellParts.compareFrames (SortedList.sort CellParts.compareFrames frames) :=
        (SortedList.sort_of_sorted (SortedList.sorted_sort frames)).symm
      have hne : es ≠ [] := by
        obtain ⟨e, he, -⟩ := PairedLists.exists_mem hes hc
        exact List.ne_nil_of_mem he
      have hagree := CellParts.agree_build_perm (multiplicity_of_isCellSide hes hcells)
        (multiplicity_of_isCellSide hes' fun c hc => hcells' c (SortedList.mem_sort.mp hc))
        (hcodes ▸ hperm.map _) hframes hne
      exact BEq.trans huv (BEq.trans (hagree.of_eq hrun hrun') (BEq.symm huv'))

/-! ### Where rewrites stand -/

/-- Whether no rewrite is in another. -/
def HasFlatRewrites (t : Term) : Prop :=
  ∀ u ∈ t.subterms, ∀ l r, u.node = .rewrite l r → l.hasRewrite = false ∧ r.hasRewrite = false

/-- Whether every rewrite is the whole term or the whole content of a cell. -/
def HasLiftedRewrites (t : Term) : Prop :=
  ∀ u ∈ t.subterms, ∀ c ∈ u.children, c.isRewrite → ∃ cs frames, u.node = .cells cs frames

theorem mem_subterms : u ∈ t.subterms ↔ u = t ∨ (∃ c ∈ t.children, u ∈ c.subterms) ∨ u ∈ t.frameTerms := by
  rw [subterms_eq, List.mem_cons, List.mem_append, List.mem_flatMap]

theorem HasFlatRewrites.child {c : Term} (h : t.HasFlatRewrites) (hc : c ∈ t.children) : c.HasFlatRewrites :=
  fun u hu => h u (mem_subterms.mpr (.inr (.inl ⟨c, hc, hu⟩)))

theorem HasFlatRewrites.sides {l r : Term} (h : t.HasFlatRewrites) (hn : t.node = .rewrite l r) :
    l.hasRewrite = false ∧ r.hasRewrite = false :=
  h t (mem_subterms.mpr (.inl rfl)) l r hn

theorem hasLiftedRewrites_iff : t.HasLiftedRewrites ↔
    (∀ c ∈ t.children, c.isRewrite → ∃ cs frames, t.node = .cells cs frames) ∧
      ∀ c ∈ t.children, c.HasLiftedRewrites := by
  constructor
  · intro h
    exact ⟨h t (mem_subterms.mpr (.inl rfl)),
      fun c hc u hu => h u (mem_subterms.mpr (.inr (.inl ⟨c, hc, hu⟩)))⟩
  · rintro ⟨hself, hchildren⟩ u hu
    rcases mem_subterms.mp hu with rfl | ⟨c, hc, hu⟩ | hu
    · exact hself
    · exact hchildren c hc u hu
    · obtain ⟨v, -, rfl⟩ := List.mem_map.mp hu
      exact List.forall_mem_nil _

theorem hasLiftedRewrites_of_hasRewrite (h : t.hasRewrite = false) : t.HasLiftedRewrites := by
  induction t using Term.induction with
  | h t ih =>
    rw [hasLiftedRewrites_iff]
    refine ⟨fun c hc hr => ?_, fun c hc => ih c hc (hasRewrite_child h hc)⟩
    rw [isRewrite_of_hasRewrite (hasRewrite_child h hc)] at hr
    cases hr

theorem hasLiftedRewrites_of_rewrite {l r : Term} (hn : t.node = .rewrite l r) (hl : l.hasRewrite = false)
    (hr : r.hasRewrite = false) : t.HasLiftedRewrites := by
  have hchildren : t.children = [l, r] := by rw [children, hn]; rfl
  have hall : ∀ c ∈ t.children, c.hasRewrite = false := by
    rw [hchildren]
    intro c hc
    rcases List.mem_pair.mp hc with rfl | rfl <;> assumption
  refine hasLiftedRewrites_iff.mpr ⟨fun c hc h => ?_, fun c hc => hasLiftedRewrites_of_hasRewrite (hall c hc)⟩
  rw [isRewrite_of_hasRewrite (hall c hc)] at h
  cases h

theorem HasLiftedRewrites.congr (h : t.HasLiftedRewrites) (htu : t == u) : u.HasLiftedRewrites := by
  induction t using Term.induction generalizing u with
  | h t ih =>
    rw [hasLiftedRewrites_iff] at h ⊢
    obtain ⟨hself, hbelow⟩ := h
    have hchildren := (children_congr htu).flip
    refine ⟨fun c hc hr => ?_, fun c hc => ?_⟩
    · obtain ⟨d, hd, hdc⟩ := PairedLists.exists_mem hchildren hc
      obtain ⟨cs, frames, hn⟩ := hself d hd (by rwa [isRewrite_congr hdc])
      have halike := alike_of_beq htu
      rw [hn] at halike
      generalize u.node = m at halike
      cases halike with
      | cells => exact ⟨_, _, rfl⟩
    · obtain ⟨d, hd, hdc⟩ := PairedLists.exists_mem hchildren hc
      exact ih d hd (hbelow d hd) hdc

theorem Lifts.hasLiftedRewrites (hflat : t.HasFlatRewrites) (ht : t.hasRewrite) (h : Lifts t t') :
    t'.HasLiftedRewrites := by
  induction t using Term.induction generalizing t' with
  | h t ih =>
    cases h with
    | rewrite hn => exact hasLiftedRewrites_of_rewrite hn (hflat.sides hn).1 (hflat.sides hn).2
    | whole _ _ _ _ hl hr hn => exact hasLiftedRewrites_of_rewrite hn hl hr
    | @cells _ _ cs cs' frames hn hcs hbuild =>
      obtain ⟨c, hc, -⟩ := exists_cell_hasRewrite hn ht
      obtain ⟨c', hc', -⟩ := PairedLists.exists_mem hcs hc
      have hnode := node_of_build (List.ne_nil_of_mem hc') hbuild
      refine hasLiftedRewrites_iff.mpr ⟨fun _ _ _ => ⟨_, _, hnode⟩, fun d hd => ?_⟩
      rw [children, hnode] at hd
      obtain ⟨cell, hcell, rfl⟩ := List.mem_map.mp hd
      obtain ⟨c, hc, hlift⟩ := PairedLists.exists_mem hcs.flip (SortedList.mem_sort.mp hcell)
      have hmem : c.content ∈ t.children := by
        rw [children, hn]
        exact List.mem_map_of_mem hc
      cases hlift with
      | kept h => exact hasLiftedRewrites_of_hasRewrite h
      | lifted h hlift => exact ih c.content hmem (hflat.child hmem) h hlift

/-! ### The walk -/

theorem liftRewrites_of_rewrite {l r : Term} (hn : t.node = .rewrite l r) : t.liftRewrites = pure t := by
  rw [liftRewrites, fold_eq, ← liftRewrites, hn]

/-- What becomes of a cell. -/
def liftCell (c : Cell) : Build Cell := do
  if c.content.hasRewrite then return { c with content := ← c.content.liftRewrites } else return c

theorem liftRewrites_of_cells {cs : List Cell} {frames : List Var} (hn : t.node = .cells cs frames) :
    t.liftRewrites = (do CellParts.build ⟨← cs.mapM liftCell, frames⟩) := by
  have hzip : cs.zip ((cs.map (·.content)).map liftRewrites) = cs.map fun c => (c, c.content.liftRewrites) := by
    rw [List.map_map]
    simpa using List.zip_map' (f := id) (g := liftRewrites ∘ fun c : Cell => c.content) (l := cs)
  rw [liftRewrites, fold_eq, ← liftRewrites, hn, children, hn]
  dsimp only [Node.children]
  rw [hzip, List.mapM_map]
  rfl

theorem liftRewrites_of_whole (hr : t.isRewrite = false) (hc : ∀ cs frames, t.node ≠ .cells cs frames) :
    t.liftRewrites = (do rewrite (← t.leftSide) (← t.rightSide)) := by
  rw [liftRewrites, fold_eq, ← liftRewrites]
  dsimp only
  split
  · simp_all [isRewrite]
  · exact absurd ‹_› (hc _ _)
  · rfl

theorem isWithin_zero (k : Nat) : isWithin 0 0 k = (decide <| · < k) := by
  funext i
  simp [isWithin]

theorem kept_madeBefore : Kept 0 (fun k => MadeBefore k) fun _ => True := by
  have h := kept_madeAt (n := 0) (Nat.le_refl 0)
  simpa only [isWithin_zero] using h

theorem gives_newRewrite {l r : Term} {k : Nat} (hl : l.MadeBefore k) (hr : r.MadeBefore k) :
    Gives k (fun k' t => t.node = .rewrite l r ∧ t.MadeBefore k') (rewrite l r) := by
  have hmade : From k (fun k' t => t.MadeAt (isWithin 0 0 k')) (new (.rewrite l r)) := by
    refine madeAt_new (Nat.le_refl 0) (Nat.zero_le k) fun c hc => ?_
    rw [isWithin_zero]
    rcases List.mem_pair.mp hc with rfl | rfl <;> assumption
  simp only [isWithin_zero] at hmade
  exact (Gives.of_always hmade (always_new _)).mono fun k' t _ ht => ⟨ht.2, ht.1⟩

/-- Terms with rewrites can always be lifted. -/
theorem gives_liftRewrites (t : Term) : ∀ {b n : Nat}, t.MadeBefore b → b ≤ n → t.hasRewrite →
    Gives n (fun k t' => Lifts t t' ∧ t'.MadeBefore k) t.liftRewrites := by
  induction t using Term.induction with
  | h t ih =>
    intro b n ht hb hr
    have hbefore {u : Term} {b k : Nat} (hu : u.MadeBefore b) (hbk : b ≤ k) : u.MadeBefore k :=
      kept_madeBefore.mono hbk hu
    by_cases hrewrite : ∃ l r, t.node = .rewrite l r
    · obtain ⟨l, r, hn⟩ := hrewrite
      rw [liftRewrites_of_rewrite hn]
      exact .pure ⟨.rewrite hn, hbefore ht hb⟩
    have hnot : t.isRewrite = false := by
      unfold isRewrite
      split
      · exact absurd ⟨_, _, ‹_›⟩ hrewrite
      · rfl
    by_cases hcells : ∃ cs frames, t.node = .cells cs frames
    · obtain ⟨cs, frames, hn⟩ := hcells
      rw [liftRewrites_of_cells hn]
      have hcs : Gives n (fun k cs' => List.Forall₂ (fun c' c => LiftsCell c c' ∧ c'.content.MadeBefore k) cs' cs)
          (cs.mapM liftCell) := by
        refine Gives.mapM (S := Eq) (R := fun k (c' c : Cell) => LiftsCell c c' ∧ c'.content.MadeBefore k)
          (fun hkm h => ⟨h.1, hbefore h.2 hkm⟩) (List.forall₂_same.mpr fun _ _ => rfl) ?_
        rintro c hc _ rfl k hk
        have hmem : c.content ∈ t.children := by
          rw [children, hn]
          exact List.mem_map_of_mem hc
        have hcb := (ht.child hmem : c.content.MadeBefore b)
        unfold liftCell
        split
        · rename_i hcr
          refine (ih c.content hmem hcb (Nat.le_trans hb hk) hcr).bind fun k' t' _ ht' => .pure ?_
          exact ⟨.lifted hcr ht'.1, ht'.2⟩
        · rename_i hcr
          exact .pure ⟨.kept (by simpa using hcr), hbefore hcb (Nat.le_trans hb hk)⟩
      refine hcs.bind fun k cs' hk hcs' => ?_
      have hbuild := CellParts.kept_build (p := ⟨cs', frames⟩) kept_madeBefore (Nat.zero_le k) ⟨fun c' hc' => by
        obtain ⟨c, -, -, hmade⟩ := PairedLists.exists_mem hcs' hc'
        exact hmade, fun _ _ => trivial⟩
      obtain ⟨t', k', hrun, -⟩ := CellParts.ends_build ⟨cs', frames⟩ k
      obtain ⟨hk', hmade⟩ := hbuild t' k' hrun
      exact ⟨t', k', hrun, hk', .cells hn (hcs'.flip.imp fun _ _ h => h.1) ⟨k, k', hrun⟩, hmade⟩
    · have hsides (s : Side) {k : Nat} (hk : n ≤ k) : Gives k (fun k' u => Side.IsSide s t u ∧
          u.hasRewrite = false ∧ u.MadeBefore k') (s.walk t) := by
        refine (s.gives_walk t ht (Nat.le_trans hb hk)).mono fun k' u hk' hu =>
          ⟨hu.isSide, hu.hasRewrite, hu.madeAt.mono fun i hi => ?_⟩
        simp only [isWithin, Bool.or_eq_true, Bool.and_eq_true, decide_eq_true_eq] at hi ⊢
        omega
      push Not at hcells
      rw [liftRewrites_of_whole hnot hcells]
      refine (hsides .left (Nat.le_refl n)).bind fun k l hk hl => ?_
      refine (hsides .right hk).bind fun k' r hk' hr => ?_
      refine (gives_newRewrite (hbefore hl.2.2 hk') hr.2.2).mono fun k'' t' _ ht' => ⟨?_, ht'.2⟩
      exact .whole hnot hcells hl.1 hr.1 hl.2.1 hr.2.1 ht'.1

end Term

end RuleCompiler
