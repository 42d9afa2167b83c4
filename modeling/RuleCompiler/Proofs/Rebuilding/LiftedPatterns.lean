import RuleCompiler.Proofs.Index.Sides
import RuleCompiler.Proofs.Matching.Ends
import RuleCompiler.Proofs.Matching.Soundness
import RuleCompiler.Proofs.RewriteLifting.Lifted

/-! # Patterns with lifted rewrites

Where rewrites are lifted, a pattern is read group of cells by group of cells, down to cells without rewrites
and to the left sides of rewrites. -/

namespace RuleCompiler

open Build (Always)
open MonadAttach (CanReturn)

/-! ### Equal patterns -/

namespace Term
variable {t u : Term}

theorem everyNode_congr {q : Term → Bool} (hq : ∀ {t u : Term}, t == u → q t → q u) (h : t == u)
    (ht : t.everyNode q) : u.everyNode q := by
  induction t using Term.induction generalizing u with
  | h t ih =>
    obtain ⟨hnode, hchildren, hframes⟩ := everyNode_iff.mp ht
    refine everyNode_iff.mpr ⟨hq h hnode, fun d hd => ?_, ?_⟩
    · obtain ⟨c, hc, hcd⟩ := PairedLists.exists_mem (children_congr h).flip hd
      exact ih c hc hcd (hchildren c hc)
    · rwa [← frames_congr h]

theorem isFirstOrder_congr (h : t == u) (ht : t.isFirstOrder fun _ => true) : u.isFirstOrder fun _ => true := by
  induction t using Term.induction generalizing u with
  | h t ih =>
    have hground := isGround_congr h
    have halike := alike_of_beq h
    have hchild : ∀ c ∈ t.node.children, ∀ {d : Term}, c == d → (c.isFirstOrder fun _ => true) →
        d.isFirstOrder fun _ => true := ih
    rw [isFirstOrder_eq] at ht ⊢
    generalize t.node = m, u.node = n at halike ht hchild
    cases halike with
    | app h =>
      refine List.all_eq_true.mpr fun d hd => ?_
      obtain ⟨c, hc, hcd⟩ := PairedLists.exists_mem h.flip hd
      exact hchild c hc hcd (List.all_eq_true.mp ht c hc)
    | token | var => rfl
    | _ => rwa [← hground]

end Term

theorem Node.isOpen_congr {m n : Node Term} (h : Alike (fun t u => t == u) m n) (hm : m.isOpen) : n.isOpen := by
  cases h with
  | list hl hb hr =>
    refine List.all_eq_true.mpr fun b' hb' => ?_
    obtain ⟨b, hmem, hbb⟩ := PairedLists.exists_mem hb.flip hb'
    have hrun := List.all_eq_true.mp hm b hmem
    have halike := Term.alike_of_beq hbb
    generalize b.node = k, b'.node = k' at halike hrun
    cases halike with
    | list _ hbase hright => cases hbase <;> cases hright <;> exact hrun
    | _ => rfl
  | map he hb =>
    refine List.all_eq_true.mpr fun e' he' => ?_
    obtain ⟨e, hmem, hk, -⟩ := PairedLists.exists_mem he.flip he'
    exact Term.isFirstOrder_congr hk (List.all_eq_true.mp hm e hmem)
  | set he hb =>
    refine List.all_eq_true.mpr fun e' he' => ?_
    obtain ⟨e, hmem, hee⟩ := PairedLists.exists_mem he.flip he'
    exact Term.isFirstOrder_congr hee (List.all_eq_true.mp hm e hmem)
  | _ => exact hm

namespace Labelling
variable {L : Labelling} {t u : Term}

theorem fits_congr {m n : Node Term} (h : Node.Alike (fun t u => t == u) m n) (hm : L.fits m) : L.fits n := by
  cases h with
  | cells h =>
    refine List.all_eq_true.mpr fun c' hc' => ?_
    obtain ⟨c, hc, hlabel, hmult, -⟩ := PairedLists.exists_mem h.flip hc'
    rw [← hlabel, ← hmult]
    exact List.all_eq_true.mp hm c hc
  | _ => exact hm

/-- What equals a pattern is one. -/
theorem IsPattern.congr (ht : L.IsPattern t) (h : t == u) : L.IsPattern u := by
  refine Term.everyNode_congr (fun {t u} h ht => ?_) h ht
  rw [isPatternNode, ← Term.isRewrite_congr h, ← Term.isDisjunction_congr h, ← Term.isGround_congr h]
  have halike := Term.alike_of_beq h
  simp only [isPatternNode, Bool.and_eq_true, Bool.or_eq_true] at ht ⊢
  exact ⟨ht.1, ht.2.imp_right fun ht => ⟨fits_congr halike ht.1, Node.isOpen_congr halike ht.2⟩⟩

end Labelling

/-! ### Lifted terms -/

namespace Term
variable {t t' c : Term}

theorem isLifted_of_hasRewrite (h : t.hasRewrite = false) : t.isLifted := by
  induction t using Term.induction with
  | h t ih =>
    rw [isLifted_eq]
    split
    · rename_i hn
      exact absurd (hasRewrite_of_isRewrite (by rw [isRewrite, hn])) (by rw [h]; exact Bool.false_ne_true)
    · rename_i cs frames hn
      refine List.all_eq_true.mpr fun c hc => ?_
      have hmem : c.content ∈ t.children := by
        rw [children, hn]
        exact List.mem_map_of_mem hc
      exact ih c.content hmem (hasRewrite_child h hmem)
    · rw [h]
      rfl

/-- A lifted term has no rewrites, or it is one, or it is a group of cells. -/
theorem isLifted_cases (h : t.isLifted) : t.hasRewrite = false ∨
    (∃ l r, t.node = .rewrite l r ∧ l.hasRewrite = false) ∨
      t.hasRewrite ∧ ∃ cs frames, t.node = .cells cs frames ∧ ∀ c ∈ cs, c.content.isLifted := by
  cases hr : t.hasRewrite with
  | false => exact .inl rfl
  | true =>
    rw [isLifted_eq, hr] at h
    refine .inr ?_
    cases hn : t.node with
    | rewrite l r =>
      rw [hn, Bool.not_eq_true'] at h
      exact .inl ⟨l, r, rfl, h⟩
    | cells cs frames =>
      rw [hn] at h
      exact .inr ⟨rfl, cs, frames, rfl, List.all_eq_true.mp h⟩
    | _ => simp [hn] at h

/-- Lifting makes lifted terms. -/
theorem Lifts.isLifted (hflat : t.HasFlatRewrites) (ht : t.hasRewrite) (h : Lifts t t') : t'.isLifted := by
  induction t using Term.induction generalizing t' with
  | h t ih =>
    rw [isLifted_eq]
    cases h with
    | rewrite hn => simp [hn, hflat.sides hn]
    | whole _ _ _ _ hl _ hn => simp [hn, hl]
    | @cells _ _ cs cs' frames hn hcs hbuild =>
      obtain ⟨c, hc, -⟩ := exists_cell_hasRewrite hn ht
      obtain ⟨c', hc', -⟩ := PairedLists.exists_mem hcs hc
      rw [node_of_build (List.ne_nil_of_mem hc') hbuild]
      refine List.all_eq_true.mpr fun d hd => ?_
      obtain ⟨c, hc, hlift⟩ := PairedLists.exists_mem hcs.flip (SortedList.mem_sort.mp hd)
      have hmem : c.content ∈ t.children := by
        rw [children, hn]
        exact List.mem_map_of_mem hc
      cases hlift with
      | kept h => exact isLifted_of_hasRewrite h
      | lifted h hlift => exact ih c.content hmem (hflat.child hmem) h hlift

end Term

namespace Side
variable {s : Side} {t u v : Term}

theorem IsSide.congr (h : IsSide s t u) (huv : u == v) : IsSide s t v := by
  induction t using Term.induction with
  | h t ih =>
    cases h with
    | kept h hu => exact .kept h (BEq.trans (BEq.symm huv) hu)
    | side hn h => exact .side hn (ih _ (s.select_mem hn) h)
    | made h hr hcs hfs hv hu => exact .made h hr hcs hfs hv (BEq.trans (BEq.symm huv) hu)

/-- A side of a group of cells is one, of the sides of the cells. -/
theorem IsSide.cells {cs : List Cell} {frames : List Var} (h : IsSide s t u) (hn : t.node = .cells cs frames)
    (hr : t.hasRewrite) : ∃ es v, List.Forall₂ (IsCellSide s) cs es ∧
      v.node = .cells (SortedList.sort CellParts.compareCells es) (SortedList.sort CellParts.compareFrames frames) ∧
        u == v := by
  obtain ⟨es, v, hes, hv, huv⟩ := h.exists_cells hn hr
  obtain ⟨c, hc, -⟩ := Term.exists_cell_hasRewrite hn hr
  obtain ⟨e, he, -⟩ := PairedLists.exists_mem hes hc
  exact ⟨es, v, hes, Term.node_of_build (List.ne_nil_of_mem he) hv, huv⟩

end Side

namespace Labelling
variable (L : Labelling)

/-- Lifted terms that are patterns where they have no rewrites and left of rewrites. -/
inductive IsLiftedPattern : Term → Prop where
  | plain {p : Term} (h : L.IsPattern p) : IsLiftedPattern p
  | rewrite {p l r : Term} (hn : p.node = .rewrite l r) (hl : L.IsPattern l) : IsLiftedPattern p
  | cells {p : Term} {cs : List Cell} {frames : List Var} (hr : p.hasRewrite) (hn : p.node = .cells cs frames)
      (hcs : ∀ c ∈ cs, IsLiftedPattern c.content) (hframes : ∀ v ∈ frames, v.isDontCare = false) :
      IsLiftedPattern p

variable {L} {p l : Term}

theorem IsPattern.hasRewrite (h : L.IsPattern p) : p.hasRewrite = false :=
  Term.anyNode_of_everyNode h fun u hu => by simp_all [isPatternNode]

/-- A lifted term whose left side is a pattern. -/
theorem IsLiftedPattern.of_left (hp : p.isLifted) (hside : Side.IsSide .left p l) (hl : L.IsPattern l) :
    L.IsLiftedPattern p := by
  induction p using Term.induction generalizing l with
  | h p ih =>
    rcases Term.isLifted_cases hp with hr | ⟨l', r, hn, hl'⟩ | ⟨hr, cs, frames, hn, hcs⟩
    · exact .plain (hl.congr (hside.beq_self hr))
    · have hside' : Side.IsSide .left p l' := .side hn (.kept hl' BEq.rfl)
      exact .rewrite hn (hl.congr (hside.beq hside'))
    · obtain ⟨es, v, hes, hv, hlv⟩ := hside.cells hn hr
      have hvp := hl.congr hlv
      refine .cells hr hn (fun c hc => ?_) fun w hw => ?_
      · obtain ⟨e, he, -, -, hce⟩ := PairedLists.exists_mem hes hc
        refine ih c.content ?_ (hcs c hc) hce (hvp.child ?_)
        · rw [Term.children, hn]
          exact List.mem_map_of_mem hc
        · rw [Term.children, hv]
          exact List.mem_map_of_mem (SortedList.mem_sort.mpr he)
      · refine hvp.named_of_frame ?_
        rw [Term.frames, hv]
        exact SortedList.mem_sort.mpr hw

theorem IsPattern.hasPlainKeys (h : L.IsPattern p) : p.HasPlainKeys := by
  induction p using Term.induction with
  | h p ih =>
    cases hg : p.isGround with
    | true => exact Term.hasPlainKeys_of_isGround hg
    | false =>
      refine .of_children ?_ fun c hc => ih c hc (h.child hc)
      have hopen := h.isOpen hg
      cases hn : p.node with
      | map | set =>
        rw [hn] at hopen
        exact hopen
      | _ => rfl

theorem IsLiftedPattern.hasPlainKeys (h : L.IsLiftedPattern p) : p.HasPlainKeys := by
  induction h with
  | plain h => exact h.hasPlainKeys
  | rewrite hn hl =>
    refine Term.hasPlainKeys_iff.mpr ⟨by rw [hn]; rfl, fun c hc => ?_⟩
    simp only [Term.sides, hn, Bool.false_eq_true, if_false, List.mem_singleton] at hc
    exact hc ▸ hl.hasPlainKeys
  | cells _ hn _ _ ih =>
    refine .of_children (by rw [hn]; rfl) fun c hc => ?_
    rw [Term.children, hn] at hc
    obtain ⟨cell, hcell, rfl⟩ := List.mem_map.mp hc
    exact ih cell hcell

end Labelling

namespace Matching
variable {L : Labelling} {σ τ : Substitution} {p s t u : Term} {v : Var}

open CellParts (cellCode)

/-! ### Readings of groups of cells -/

/-- The same cells, whichever nodes they are made of, but for their multiplicities. -/
abbrev SameCells (cs ds : List Cell) : Prop := cs.map cellCode = ds.map cellCode

theorem sameCells_of_beq {ss ss' : List Cell} {frames frames' : List Var} (h : s == t)
    (hs : s.node = .cells ss frames) (ht : t.node = .cells ss' frames') : SameCells ss ss' := by
  have halike := Term.alike_of_beq h
  rw [hs, ht] at halike
  cases halike with
  | cells h =>
    refine PairedLists.map_eq (h.imp fun c d h => ?_)
    rw [cellCode, cellCode, h.1, Term.beq_iff.mp h.2.2]

theorem sameCells_flatten {rests rests' : List (List Cell)} (h : List.Forall₂ SameCells rests rests') :
    SameCells rests.flatten rests'.flatten := by
  induction h with
  | nil => rfl
  | cons h _ ih => rw [SameCells, List.flatten_cons, List.flatten_cons, List.map_append, List.map_append, h, ih]

theorem sameCells_of_contents {cs used used' : List Cell} (hl : List.Forall₂ (fun c u => u.label = c.label) cs used)
    (hl' : List.Forall₂ (fun c u => u.label = c.label) cs used')
    (hc : Term.Equal (used.map (·.content)) (used'.map (·.content))) : SameCells used used' := by
  have hlabels : List.Forall₂ (fun u u' : Cell => u.label = u'.label) used used' :=
    PairedLists.comp (fun _ _ _ h h' => h.trans h'.symm) hl.flip hl'
  rw [Term.Equal, List.forall₂_map_left_iff, List.forall₂_map_right_iff] at hc
  refine PairedLists.map_eq ((PairedLists.and hlabels hc).imp fun u u' h => ?_)
  rw [cellCode, cellCode, h.1, Term.beq_iff.mp h.2]

theorem exists_cells_of_beq {ss : List Cell} {frames : List Var} (h : s == t) (hs : s.node = .cells ss frames) :
    ∃ ss', t.node = .cells ss' frames := by
  have halike := Term.alike_of_beq h
  rw [hs] at halike
  generalize t.node = m at halike
  cases halike with
  | cells => exact ⟨_, rfl⟩

theorem multiplicity_of_beq {ss ss' : List Cell} {frames frames' : List Var} (h : s == t)
    (hs : s.node = .cells ss frames) (ht : t.node = .cells ss' frames')
    (hm : ∀ c ∈ ss, c.multiplicity = L.multiplicity c.label) : ∀ c ∈ ss', c.multiplicity = L.multiplicity c.label := by
  have halike := Term.alike_of_beq h
  rw [hs, ht] at halike
  cases halike with
  | cells h =>
    intro d hd
    obtain ⟨c, hc, hlabel, hmult, -⟩ := PairedLists.exists_mem h.flip hd
    rw [← hlabel, ← hmult, hm c hc]

/-- The cells of a subject have the multiplicities of their labels, and stand in order. -/
theorem IsSubject.cells {ss : List Cell} {frames : List Var} (h : L.IsSubject s) (hn : s.node = .cells ss frames) :
    (∀ c ∈ ss, c.multiplicity = L.multiplicity c.label) ∧ frames = [] ∧ CellParts.isNormal { cells := ss } := by
  have hfits := h.fits
  have hnormal := h.isNormal
  have hframes := h.frames_eq
  rw [hn] at hfits hnormal
  rw [Term.frames, hn] at hframes
  exact ⟨fun c hc => by simpa using List.all_eq_true.mp hfits c hc, hframes, hnormal⟩

/-- Subjects with the same cells are equal. -/
theorem IsSubject.beq_of_perm {ss ts : List Cell} (hs : L.IsSubject s) (ht : L.IsSubject t) (hsn : s.node = .cells ss [])
    (htn : t.node = .cells ts []) (h : (ss.map cellCode).Perm (ts.map cellCode)) : s == t := by
  obtain ⟨hss, -, hsnormal⟩ := IsSubject.cells hs hsn
  obtain ⟨hts, -, htnormal⟩ := IsSubject.cells ht htn
  obtain ⟨u, hu, hus⟩ := (CellParts.always_build hsn hsnormal hss hss (.refl _)).exists_canReturn
  have hut := (CellParts.always_build htn htnormal hss hts h).returns u hu
  exact BEq.trans (BEq.symm hus) hut

/-- The frame is bound to a group of such cells, which have the multiplicities of their labels. -/
def NamesCells (L : Labelling) (σ : Substitution) (v : Var) (rest : List Cell) : Prop :=
  ∃ t cs, σ.get? v = some t ∧ t.node = .cells cs [] ∧ (∀ c ∈ cs, c.multiplicity = L.multiplicity c.label) ∧
    SameCells cs rest

theorem NamesCells.of_names {cs rest : List Cell} (h : Names σ v t) (hn : t.node = .cells cs [])
    (hm : ∀ c ∈ cs, c.multiplicity = L.multiplicity c.label) (hcs : SameCells cs rest) : NamesCells L σ v rest := by
  obtain ⟨u, hu, hut, -⟩ := h
  obtain ⟨ds, hds⟩ := exists_cells_of_beq (BEq.symm hut) hn
  exact ⟨u, ds, hu, hds, multiplicity_of_beq (BEq.symm hut) hn hds hm, (sameCells_of_beq hut hds hn).trans hcs⟩

theorem NamesCells.mono {rest : List Cell} (hτ : τ.Extends σ) (h : NamesCells L σ v rest) : NamesCells L τ v rest := by
  obtain ⟨t, cs, ht, h⟩ := h
  exact ⟨t, cs, hτ v t ht, h⟩

theorem NamesCells.unique {rest rest' : List Cell} (h : NamesCells L σ v rest) (h' : NamesCells L σ v rest') :
    SameCells rest rest' := by
  obtain ⟨t, cs, ht, hn, -, hcs⟩ := h
  obtain ⟨t', cs', ht', hn', -, hcs'⟩ := h'
  cases ht.symm.trans ht'
  exact hcs.symm.trans ((sameCells_of_beq BEq.rfl hn hn').trans hcs')

/-- Under the bindings the left side of the lifted pattern is the term: cells are those of the pattern, in
whatever order, and those that the frames stand for. -/
inductive LiftedReads (L : Labelling) (σ : Substitution) : Term → Term → Prop where
  | plain {p s : Term} (hr : p.hasRewrite = false) (h : Reads σ p s) : LiftedReads L σ p s
  | rewrite {p s l r : Term} (hn : p.node = .rewrite l r) (h : Reads σ l s) : LiftedReads L σ p s
  | cells {p s : Term} {cs ss used : List Cell} {frames : List Var} {rests : List (List Cell)} (hr : p.hasRewrite)
      (hn : p.node = .cells cs frames) (hs : s.node = .cells ss []) (hused : ∀ u ∈ used.map (·.content), L.IsSubject u)
      (hl : List.Forall₂ (fun c u => u.label = c.label) cs used)
      (hc : List.Forall₂ (LiftedReads L σ) (cs.map (·.content)) (used.map (·.content)))
      (hf : List.Forall₂ (NamesCells L σ) frames rests)
      (h : (ss.map cellCode).Perm ((used ++ rests.flatten).map cellCode)) : LiftedReads L σ p s

theorem LiftedReads.mono (hτ : τ.Extends σ) (h : LiftedReads L σ p s) : LiftedReads L τ p s := by
  induction p using Term.induction generalizing s with
  | h p ih =>
    cases h with
    | plain hr h => exact .plain hr (h.mono hτ)
    | rewrite hn h => exact .rewrite hn (h.mono hτ)
    | cells hr hn hs hused hl hc hf h =>
      refine .cells hr hn hs hused hl ?_ (hf.imp fun _ _ h => h.mono hτ) h
      exact PairedLists.imp_mem hc fun c hm t _ h => ih c (by rwa [Term.children, hn]) h

theorem LiftedReads.congr (h : LiftedReads L σ p s) (hst : s == t) : LiftedReads L σ p t := by
  cases h with
  | plain hr h => exact .plain hr (h.congr hst)
  | rewrite hn h => exact .rewrite hn (h.congr hst)
  | cells hr hn hs hused hl hc hf h =>
    obtain ⟨ss', ht⟩ := exists_cells_of_beq hst hs
    exact .cells hr hn ht hused hl hc hf (sameCells_of_beq hst hs ht ▸ h)

/-- What a lifted pattern reads as is determined. -/
theorem LiftedReads.unique (hs : L.IsSubject s) (ht : L.IsSubject t) (h : LiftedReads L σ p s)
    (h' : LiftedReads L σ p t) : s == t := by
  induction p using Term.induction generalizing s t with
  | h p ih =>
    cases h with
    | plain hr h =>
      cases h' with
      | plain _ h' => exact h.unique h' BEq.rfl
      | rewrite hn => simp [Term.hasRewrite_of_isRewrite (t := p) (by rw [Term.isRewrite, hn])] at hr
      | cells hr' => simp [hr] at hr'
    | rewrite hn h =>
      cases h' with
      | plain hr => simp [Term.hasRewrite_of_isRewrite (t := p) (by rw [Term.isRewrite, hn])] at hr
      | rewrite hn' h' =>
        cases hn.symm.trans hn'
        exact h.unique h' BEq.rfl
      | cells _ hn' => cases hn.symm.trans hn'
    | @cells _ _ cs ss used frames rests hr hn hsn hused hl hc hf h =>
      cases h' with
      | plain hr' => simp [hr] at hr'
      | rewrite hn' => cases hn.symm.trans hn'
      | @cells _ _ _ ts used' _ rests' _ hn' htn hused' hl' hc' hf' h' =>
        cases hn.symm.trans hn'
        have hread : List.Forall₂ (fun u c => c ∈ p.children ∧ L.IsSubject u ∧ LiftedReads L σ c u)
            (used.map (·.content)) (cs.map (·.content)) :=
          (PairedLists.imp_mem hc fun c hc u hu h => ⟨by rwa [Term.children, hn], hused u hu, h⟩).flip
        have hread' : List.Forall₂ (fun c u => L.IsSubject u ∧ LiftedReads L σ c u)
            (cs.map (·.content)) (used'.map (·.content)) :=
          PairedLists.imp_mem hc' fun _ _ u hu h => ⟨hused' u hu, h⟩
        have hcontents : Term.Equal (used.map (·.content)) (used'.map (·.content)) :=
          PairedLists.comp (fun _ c _ h h' => ih c h.1 h.2.1 h'.1 h.2.2 h'.2) hread hread'
        have hrests : List.Forall₂ SameCells rests rests' := PairedLists.comp
          (fun rest v rest' (h : NamesCells L σ v rest) (h' : NamesCells L σ v rest') => h.unique h') hf.flip hf'
        refine IsSubject.beq_of_perm hs ht hsn htn (h.trans ?_)
        rw [List.map_append, sameCells_of_contents hl hl' hcontents, sameCells_flatten hrests, ← List.map_append]
        exact h'.symm

/-! ### Matches -/

/-- What is matched in a lifted pattern is read in it. -/
def LiftedReadable (L : Labelling) (σ : Substitution) (p s : Term) : Prop :=
  Settled σ → L.IsLiftedPattern p → L.IsSubject s → LiftedReads L σ p s

theorem liftedReadable_stable : Stable (LiftedReadable L) :=
  fun _ _ _ _ hτ h hσ hp hs => (h (hσ.mono hτ) hp hs).mono hτ

theorem LiftedReads.reads (hp : p.hasRewrite = false) (h : LiftedReads L σ p s) : Reads σ p s := by
  cases h with
  | plain _ h => exact h
  | rewrite hn => simp [Term.hasRewrite_of_isRewrite (t := p) (by rw [Term.isRewrite, hn])] at hp
  | cells hr => simp [hr] at hp

theorem LiftedReadable.readable (h : LiftedReadable L σ p s) : Readable L σ p s :=
  fun hσ hp hs => (h hσ (.plain hp) hs).reads hp.hasRewrite

/-- A group of cells is read cell by cell. -/
theorem liftedReads_of_cells {cs cs' : List Cell} {frames : List Var} (hr : p.hasRewrite)
    (hn : p.node = .cells cs frames) (hsn : s.node = .cells cs' []) (hσ : Settled σ)
    (hcs : ∀ c ∈ cs, L.IsLiftedPattern c.content) (hframes : ∀ v ∈ frames, v.isDontCare = false) (hs : L.IsSubject s)
    (h : CellsFit (LiftedReadable L σ) σ [] frames cs (cs'.mapIdx fun i c => (i, c))) : LiftedReads L σ p s := by
  obtain ⟨used, rest, r, hperm, hused, hr', hend⟩ := exists_rest_of_cells h
  have hsub : ∀ u ∈ used, L.IsSubject u.content := fun u hu => hs.child (by
    rw [Term.children, hsn]
    exact List.mem_map_of_mem (hperm.mem_iff.mpr (List.mem_append_left _ hu)))
  have hsub' : ∀ u ∈ used.map (·.content), L.IsSubject u := fun u hu => by
    obtain ⟨w, hw, rfl⟩ := List.mem_map.mp hu
    exact hsub w hw
  have hcontents : List.Forall₂ (LiftedReads L σ) (cs.map (·.content)) (used.map (·.content)) := by
    rw [List.forall₂_map_left_iff, List.forall₂_map_right_iff]
    exact PairedLists.imp_mem hused fun c hc u hu h => h.2 hσ (hcs c hc) (hsub u hu)
  have hlabels := hused.imp fun _ _ h => h.1
  obtain ⟨rests, hf, hrests⟩ : ∃ rests, List.Forall₂ (NamesCells L σ) frames rests ∧
      (rest.map cellCode).Perm (rests.flatten.map cellCode) := by
    rcases hend.cases with ⟨rfl, -⟩ | ⟨v, rfl, hv⟩
    · obtain ⟨rfl, -⟩ := empty_of_rest hr' hend
      exact ⟨[], .nil, .refl _⟩
    · rw [CellParts.build_eq] at hr'
      have hnode := Term.returns_new _ r hr'
      have hnames := Names.of_bound (hframes v List.mem_cons_self) hv
      have hmult : ∀ c ∈ SortedList.sort CellParts.compareCells rest, c.multiplicity = L.multiplicity c.label :=
        fun c hc => (IsSubject.cells hs hsn).1 c <|
          hperm.mem_iff.mpr (List.mem_append_right _ (SortedList.mem_sort.mp hc))
      refine ⟨[SortedList.sort CellParts.compareCells rest], .cons (.of_names hnames hnode hmult rfl) .nil, ?_⟩
      rw [List.flatten_singleton]
      exact ((SortedList.perm_sort rest).map _).symm
  refine .cells hr hn hsn hsub' hlabels hcontents hf ?_
  rw [List.map_append]
  refine ((hperm.map cellCode).trans ?_)
  rw [List.map_append]
  exact hrests.append_left _

theorem IsSubject.hasRewrite (hs : L.IsSubject s) : s.hasRewrite = false :=
  Term.anyNode_of_everyNode hs fun u hu => by simp_all [Labelling.isSubjectNode]

/-- A lifted pattern that fits a subject is read. -/
theorem liftedReadable_of_fits (h : Fits (LiftedReadable L) σ p s) (hcompared : isCompared p → p == s) :
    LiftedReadable L σ p s := by
  intro hσ hp hs
  cases hp with
  | plain hpat =>
    exact .plain hpat.hasRewrite (readable_of_fits (h.imp fun _ _ => LiftedReadable.readable) hcompared hσ hpat hs)
  | rewrite hn hl =>
    cases h with
    | same _ heq =>
      have hno := (Term.hasRewrite_congr heq).trans (IsSubject.hasRewrite hs)
      simp [Term.hasRewrite_of_isRewrite (t := p) (by rw [Term.isRewrite, hn])] at hno
    | rewrite hn' h =>
      cases hn.symm.trans hn'
      exact .rewrite hn (h.readable hσ hl hs)
    | _ hn' => cases hn.symm.trans hn'
  | cells hr hn hcs hframes =>
    cases h with
    | same _ heq => simp [Term.hasRewrite_congr heq, IsSubject.hasRewrite hs] at hr
    | cells hn' hsn h =>
      cases hn.symm.trans hn'
      obtain ⟨-, rfl, -⟩ := IsSubject.cells hs hsn
      exact liftedReads_of_cells hr hn hsn hσ hcs hframes hs h
    | _ hn' => cases hn.symm.trans hn'

theorem matchFrom_liftedReadable (L : Labelling) (p s : Term) (st : MatchState) :
    Returns (Reaches st fun σ => LiftedReadable L σ p s) (matchFrom p s st) :=
  below_forces liftedReadable_stable (fun _ _ _ => liftedReadable_of_fits) s.size p s st

/-! ### From the left side -/

/-- What equals a pattern is read as the pattern is. -/
theorem Reads.congr_left {q : Term} (h : Reads σ p s) (hpq : p == q) : Reads σ q s := by
  induction p using Term.induction generalizing q s with
  | h p ih =>
    have hground := Term.isGround_congr hpq
    cases h with
    | ground hg h => exact .ground (hground ▸ hg) (BEq.trans (BEq.symm hpq) h)
    | var hn h => exact .var (Term.node_of_asVar? (by rw [← Term.asVar?_congr hpq, Term.asVar?_of_var hn])) h
    | @node _ _ cs fs hg hvar hchoice hc hf h =>
      have halike := Term.alike_of_beq hpq
      have hchildren : List.Forall₂ (Reads σ) q.children cs := by
        have hpairs : List.Forall₂ (fun d c => c ∈ p.children ∧ c == d) q.children p.children :=
          (PairedLists.imp_mem (Term.children_congr hpq) fun c hc _ _ h => ⟨hc, h⟩).flip
        exact PairedLists.comp (fun d c t h (h' : Reads σ c t) => ih c h.1 h' h.2) hpairs hc
      have hchoice' : q.node.isChoice = false := by
        rw [← hchoice]
        generalize p.node = m, q.node = n at halike
        cases halike <;> rfl
      refine .node (hground ▸ hg) (Term.isVar_congr hpq ▸ hvar) hchoice' hchildren (Term.frames_congr hpq ▸ hf)
        fun cs' fs' hcs hfs => ?_
      have hmade := h cs' fs' hcs hfs
      rcases Term.rebuild_congr halike cs' fs' with heq | ⟨hkept, hkept'⟩
      · rwa [← heq]
      · rw [hkept] at hmade
        rw [hkept']
        exact .pure (BEq.trans (BEq.symm hpq) (hmade.returns p ⟨0, 0, rfl⟩))

/-- Ground terms among cells are groups of cells. -/
theorem returns_concatAll {fs : List Term} (hfs : ∀ f ∈ fs, f.isGround) (parts : CellParts) :
    Returns (fun q : CellParts => ∃ rests, List.Forall₂ (fun f rest => f.node = .cells rest []) fs rests ∧
      q = { parts with cells := parts.cells ++ rests.flatten }) (fs.foldlM CellParts.concat parts) := by
  induction fs generalizing parts with
  | nil =>
    rw [List.foldlM_nil]
    exact .pure ⟨[], .nil, by rw [List.flatten_nil, List.append_nil]⟩
  | cons f fs ih =>
    obtain ⟨hf, hfs⟩ := List.forall_mem_cons.mp hfs
    obtain ⟨hvar, -, hframes⟩ := Term.isGround_iff.mp hf
    rw [List.foldlM_cons, CellParts.concat]
    split
    · rename_i more frames hn
      rw [Term.frames, hn] at hframes
      obtain rfl : frames = [] := hframes
      rw [pure_bind]
      refine (ih hfs _).mono ?_
      rintro _ ⟨rests, hrests, rfl⟩
      refine ⟨more :: rests, .cons hn hrests, ?_⟩
      rw [List.flatten_cons, List.append_nil, List.append_assoc]
    · rename_i hn
      simp [Term.isVar, Node.isVar, hn] at hvar
    · have hclash : Returns (fun _ => False) (throw ⟨f⟩ : Build CellParts) := .throw _
      exact hclash.bind fun _ h => h.elim

/-- A subject that is put together from cells and from groups of cells has the cells of all of them. -/
theorem exists_cells_of_made {made : List Cell} {fs : List Term} (hs : L.IsSubject s) (hfs : ∀ f ∈ fs, f.isGround)
    (h : Always (Term.cellsFrom made fs) (· == s)) : ∃ ss rests, s.node = .cells ss [] ∧
      List.Forall₂ (fun f rest => f.node = .cells rest [] ∧ ∀ c ∈ rest, c.multiplicity = L.multiplicity c.label)
        fs rests ∧ (ss.map cellCode).Perm ((made ++ rests.flatten).map cellCode) := by
  have hshape : Returns (fun t => ∃ rests, List.Forall₂ (fun f rest => f.node = .cells rest []) fs rests ∧
      t.node = .cells (SortedList.sort CellParts.compareCells (made ++ rests.flatten)) []) (Term.cellsFrom made fs) := by
    rw [Term.cellsFrom]
    refine (returns_concatAll hfs _).bind ?_
    rintro _ ⟨rests, hrests, rfl⟩
    rw [CellParts.build_eq]
    exact (Term.returns_new _).mono fun t ht => ⟨rests, hrests, ht⟩
  obtain ⟨t, ht, hts⟩ := h.exists_canReturn
  obtain ⟨rests, hrests, htn⟩ := hshape t ht
  obtain ⟨ss, hsn⟩ := exists_cells_of_beq hts htn
  have hmult := multiplicity_of_beq (BEq.symm hts) hsn htn (IsSubject.cells hs hsn).1
  refine ⟨ss, rests, hsn, PairedLists.imp_mem hrests fun f _ rest hrest hf => ⟨hf, fun c hc => ?_⟩, ?_⟩
  · refine hmult c (SortedList.mem_sort.mpr (List.mem_append_right _ ?_))
    exact List.mem_flatten.mpr ⟨rest, hrest, hc⟩
  · rw [← sameCells_of_beq hts htn hsn]
    exact (SortedList.perm_sort _).map _

/-- Cells written down among others are among them. -/
theorem exists_used {made rest ss : List Cell} (h : (ss.map cellCode).Perm ((made ++ rest).map cellCode)) :
    ∃ used, used ⊆ ss ∧ List.Forall₂ (fun c u => cellCode c = cellCode u) made used := by
  have hcodes : List.Forall₂ (fun a c => a = cellCode c) (ss.map cellCode) ss :=
    List.forall₂_map_left_iff.mpr (List.forall₂_same.mpr fun _ _ => rfl)
  obtain ⟨us, hus, hperm⟩ := List.perm_comp_forall₂ h.symm hcodes
  obtain ⟨used, rest', rfl, hused, -⟩ := PairedLists.exists_append (List.forall₂_map_left_iff.mp hus).flip
  exact ⟨used, fun u hu => hperm.mem_iff.mp (List.mem_append_left _ hu), hused.flip⟩

/-- A ground group of cells that equals a subject is read cell by cell. -/
theorem cells_of_isGround {cs : List Cell} {frames : List Var} (hs : L.IsSubject s) (hp : p.isGround) (h : p == s)
    (hn : p.node = .cells cs frames) : ∃ ss, s.node = .cells ss [] ∧ frames = [] ∧
      List.Forall₂ (fun c u : Cell => u.label = c.label) cs ss ∧
        List.Forall₂ (Reads σ) (cs.map (·.content)) (ss.map (·.content)) := by
  obtain ⟨ss, hsn⟩ := exists_cells_of_beq h hn
  obtain ⟨-, rfl, -⟩ := IsSubject.cells hs hsn
  have halike := Term.alike_of_beq h
  rw [hn, hsn] at halike
  cases halike with
  | cells hcells =>
    refine ⟨ss, hsn, rfl, hcells.imp fun _ _ h => h.1.symm, ?_⟩
    rw [List.forall₂_map_left_iff, List.forall₂_map_right_iff]
    refine PairedLists.imp_mem hcells fun c hc u _ h => .ground (Term.isGround_child hp ?_) h.2.2
    rw [Term.children, hn]
    exact List.mem_map_of_mem hc

/-- A group of cells that reads as a subject is read cell by cell. -/
theorem Reads.cells {cs : List Cell} {frames : List Var} (hσ : Settled σ) (hs : L.IsSubject s) (h : Reads σ p s)
    (hn : p.node = .cells cs frames) : ∃ ss used rests, s.node = .cells ss [] ∧ used ⊆ ss ∧
      List.Forall₂ (fun c u : Cell => u.label = c.label) cs used ∧
        List.Forall₂ (Reads σ) (cs.map (·.content)) (used.map (·.content)) ∧
          List.Forall₂ (NamesCells L σ) frames rests ∧
            (ss.map cellCode).Perm ((used ++ rests.flatten).map cellCode) := by
  cases h with
  | ground hg heq =>
    obtain ⟨ss, hsn, rfl, hlabels, hcontents⟩ := cells_of_isGround hs hg heq hn
    refine ⟨ss, ss, [], hsn, List.Subset.refl ss, hlabels, hcontents, .nil, ?_⟩
    rw [List.flatten_nil, List.append_nil]
  | var hv => cases hn.symm.trans hv
  | @node _ _ ts fs hg hvar hchoice hc hf h =>
    rw [Term.children, hn] at hc
    rw [Term.frames, hn] at hf
    have hground : ∀ f ∈ fs, f.isGround := fun f hf' => by
      obtain ⟨v, -, t, ht, heq, -⟩ := PairedLists.exists_mem hf.flip hf'
      exact Term.isGround_congr heq ▸ isGround_of_isCompared (hσ v t ht).1
    have hmade := h ts fs (.refl ts) (.refl fs)
    rw [CellParts.rebuild_eq hn] at hmade
    obtain ⟨ss, rests, hsn, hrests, hperm⟩ := exists_cells_of_made hs hground hmade
    obtain ⟨used, hsub, hused⟩ := exists_used hperm
    have hlen : cs.length = ts.length := by
      rw [← hc.length_eq]
      exact (List.length_map _).symm
    have hlabels : used.map (·.label) = (CellParts.withContents cs ts).map (·.label) :=
      PairedLists.map_eq (hused.flip.imp fun _ _ h => (congrArg Prod.fst h).symm)
    have hcontents : Term.Equal ts (used.map (·.content)) := by
      rw [← CellParts.map_content_withContents hlen, Term.Equal, List.forall₂_map_left_iff,
        List.forall₂_map_right_iff]
      exact hused.imp fun _ _ h => Term.beq_iff.mpr (congrArg Prod.snd h)
    refine ⟨ss, used, rests, hsn, hsub, ?_, PairedLists.comp (fun _ _ _ h h' => h.congr h') hc hcontents, ?_, ?_⟩
    · refine PairedLists.of_map_eq (R := fun c u : Cell => u.label = c.label) (fun _ _ h => h.symm) ?_
      rw [hlabels, CellParts.map_withContents (fun _ _ => rfl) hlen]
    · exact PairedLists.comp (fun v f rest (h : Names σ v f) hn => .of_names h hn.1 hn.2 rfl) hf hrests
    · rwa [List.map_append, ← PairedLists.map_eq hused, ← List.map_append]

/-- Where the left side of a lifted term reads as a subject, so does the lifted term. -/
theorem Reads.lifted {l : Term} (hσ : Settled σ) (hs : L.IsSubject s) (hp : p.isLifted)
    (hside : Side.IsSide .left p l) (h : Reads σ l s) : LiftedReads L σ p s := by
  induction p using Term.induction generalizing l s with
  | h p ih =>
    rcases Term.isLifted_cases hp with hr | ⟨l', r, hn, hl'⟩ | ⟨hr, cs, frames, hn, hcs⟩
    · exact .plain hr (h.congr_left (hside.beq_self hr))
    · exact .rewrite hn (h.congr_left (hside.beq (.side hn (.kept hl' BEq.rfl))))
    · obtain ⟨es, v, hes, hv, hlv⟩ := hside.cells hn hr
      obtain ⟨ss, used, rests, hsn, hsub, hl, hc, hf, hperm⟩ := Reads.cells hσ hs (h.congr_left hlv) hv
      rw [List.forall₂_map_left_iff, List.forall₂_map_right_iff] at hc
      -- the parts of the subject in the order of the pattern, whose left side was put in order
      obtain ⟨used', hused, husedperm⟩ := List.perm_comp_forall₂ (SortedList.perm_sort es).symm (PairedLists.and hl hc)
      obtain ⟨rests', hrests, hrestsperm⟩ := List.perm_comp_forall₂ (SortedList.perm_sort frames).symm hf
      have hused' : ∀ u ∈ used'.map (·.content), L.IsSubject u := fun u hu => by
        obtain ⟨w, hw, rfl⟩ := List.mem_map.mp hu
        refine hs.child ?_
        rw [Term.children, hsn]
        exact List.mem_map_of_mem (hsub (husedperm.mem_iff.mp hw))
      refine .cells hr hn hsn hused' ?_ ?_ hrests ?_
      · exact PairedLists.comp (fun c e u (h : Side.IsCellSide .left c e) h' => h'.1.trans h.1) hes hused
      · rw [List.forall₂_map_left_iff, List.forall₂_map_right_iff]
        have hread : List.Forall₂ (fun (e u : Cell) => L.IsSubject u.content ∧ Reads σ e.content u.content) es used' :=
          PairedLists.imp_mem hused fun e _ u hu h => ⟨hused' _ (List.mem_map_of_mem hu), h.2⟩
        have hside : List.Forall₂ (fun (c e : Cell) => c ∈ cs ∧ Side.IsSide .left c.content e.content) cs es :=
          PairedLists.imp_mem hes fun c hc e _ h => ⟨hc, h.2.2⟩
        refine PairedLists.comp (fun c e u h h' => ?_) hside hread
        refine ih c.content ?_ h'.1 (hcs c h.1) h.2 h'.2
        rw [Term.children, hn]
        exact List.mem_map_of_mem h.1
      · refine hperm.trans (List.Perm.map _ ?_)
        exact (husedperm.append hrestsperm.flatten).symm

end Matching

end RuleCompiler
