import RuleCompiler.Proofs.Rebuilding.Instances
import RuleCompiler.Proofs.Rebuilding.LiftedPatterns

/-! # Instances of right sides

The instance of a pattern that reads as a term is the term. That of a group of cells is put together from
the instances of the contents and from the cells that the frames stand for, in whatever order these are. -/

namespace RuleCompiler

open Build (Agree Always)
open MonadAttach (CanReturn)
open Term (Equal)

namespace Build
variable {α β γ : Type}

/-- The computation gives nothing. -/
abbrev Clashes (x : Build α) : Prop := Returns (fun _ => False) x

theorem Clashes.bind {x : Build α} {f : α → Build β} (h : Clashes x) : Clashes (x >>= f) :=
  Returns.bind h fun _ h => h.elim

theorem Clashes.mapM {f : γ → Build α} {cs : List γ} {c : γ} (hc : c ∈ cs) (h : Clashes (f c)) :
    Clashes (cs.mapM f) := by
  have hall : Returns (List.Forall₂ (fun c _ => ¬Clashes (f c)) cs) (cs.mapM f) :=
    .mapM fun _ _ a ha hclash => hclash a ha
  refine hall.mono fun as has => ?_
  obtain ⟨a, -, hno⟩ := PairedLists.exists_mem has hc
  exact hno h

/-- Where each computation gives what is paired with it. -/
theorem Always.mapM_paired {R : α → β → Prop} {f : γ → Build α} {cs : List γ} {bs : List β}
    (h : List.Forall₂ (fun c b => Always (f c) (R · b)) cs bs) :
    Always (cs.mapM f) fun as => List.Forall₂ R as bs := by
  induction h with
  | nil =>
    rw [List.mapM_nil]
    exact .pure .nil
  | cons h _ ih =>
    rw [List.mapM_cons]
    exact h.bind fun _ ha => ih.bind fun _ has => .pure (.cons ha has)

end Build

open Build (Clashes)

namespace CellParts

/-- Groups of cells among cells are dissolved. -/
theorem foldlM_concat_cells {fs : List Term} {rests : List (List Cell)}
    (h : List.Forall₂ (fun f rest => f.node = .cells rest []) fs rests) (p : CellParts) :
    fs.foldlM concat p = pure { p with cells := p.cells ++ rests.flatten } := by
  induction h generalizing p with
  | nil => rw [List.foldlM_nil, List.flatten_nil, List.append_nil]
  | cons hf _ ih =>
    rw [List.foldlM_cons, concat, hf, pure_bind, ih, List.flatten_cons, List.append_nil, List.append_assoc]

end CellParts

namespace Substitution
variable {σ : Substitution} {t u v : Term}

/-- The term `t` is the instance of `u`. -/
def IsInstance (σ : Substitution) (u t : Term) : Prop := Always (σ.instantiate u) (· == t)

theorem IsInstance.congr (h : IsInstance σ u t) (huv : u == v) : IsInstance σ v t :=
  ((agree_instantiate huv).always h).mono fun _ ⟨_, ht, heq⟩ => BEq.trans (BEq.symm heq) ht

theorem clashes_congr (h : Clashes (σ.instantiate u)) (huv : u == v) : Clashes (σ.instantiate v) :=
  (agree_instantiate huv).clashes h

theorem not_clashes_of_not_touches (h : σ.touches t = false) : ¬Clashes (σ.instantiate t) := by
  rw [instantiate_of_not_touches h]
  exact fun hclash => hclash t ⟨0, 0, rfl⟩

/-- Where the instance of a part clashes, so does that of the whole. -/
theorem clashes_child {c : Term} (hc : c ∈ t.children) (h : Clashes (σ.instantiate c)) :
    Clashes (σ.instantiate t) := by
  have htouch : σ.touches t := by
    refine touches_child hc ?_
    by_contra hno
    exact not_clashes_of_not_touches (by simpa using hno) h
  have hvar : t.isVar = false := by
    unfold Term.isVar Node.isVar
    split
    · rename_i hn
      rw [Term.children, hn] at hc
      cases hc
    · rfl
  rw [instantiate_eq htouch hvar]
  exact (Clashes.mapM hc h).bind

/-- The instance of a pattern that reads as a term is the term. -/
theorem isInstance_of_reads (h : Matching.Reads σ u t) : IsInstance σ u t := by
  induction u using Term.induction generalizing t with
  | h u ih =>
    have hbound := h.bound
    cases h with
    | ground hu h =>
      have htouch : σ.touches u = false := by rw [touches, (Term.isGround_iff_vars u).mp hu]; rfl
      rw [IsInstance, instantiate_of_not_touches htouch]
      exact .pure h
    | var hn h =>
      obtain ⟨s, hs, hst, -⟩ := h
      rw [IsInstance, instantiate_of_var hn, hs]
      exact .pure hst
    | @node _ _ cs fs hground hvar _ hc hf h =>
      have htouch : σ.touches u := by
        have hne : u.vars ≠ [] := fun hno => by
          rw [(Term.isGround_iff_vars u).mpr hno] at hground
          cases hground
        obtain ⟨w, hw⟩ := List.exists_mem_of_ne_nil _ hne
        obtain ⟨s, hs, -⟩ := hbound w hw
        exact List.any_eq_true.mpr ⟨w, hw, by rw [contains, hs]; rfl⟩
      have hframes : List.Forall₂ (fun v f => Always (σ.frameTerm v) (· == f)) u.frames fs :=
        hf.imp fun v f hnames => by
          obtain ⟨s, hs, hsf, -⟩ := hnames
          rw [frameTerm, hs]
          exact .pure hsf
      rw [IsInstance, instantiate_eq htouch hvar]
      refine (Always.mapM_paired (PairedLists.imp_mem hc fun c hm _ _ h => ih c hm h)).bind fun xs hxs => ?_
      exact (Always.mapM_paired hframes).bind fun gs hgs => h xs gs hxs hgs

/-! ### Groups of cells -/

section Cells
variable {L : Labelling} {es ds made : List Cell} {frames : List Var} {rests : List (List Cell)}

open CellParts (cellCode)
open Matching (NamesCells SameCells sameCells_flatten)

theorem contains_of_namesCells {w : Var} {rest : List Cell} (h : NamesCells L σ w rest) : σ.contains w := by
  obtain ⟨u, -, hu, -⟩ := h
  rw [contains, hu]
  rfl

/-- What the frames stand for are groups of the cells that they name. -/
theorem exists_frameTerms (hf : List.Forall₂ (NamesCells L σ) frames rests) :
    ∃ fs rests', List.Forall₂ (fun w f => σ.frameTerm w = pure f) frames fs ∧
      List.Forall₂ (fun f rest => f.node = .cells rest []) fs rests' ∧ List.Forall₂ SameCells rests' rests ∧
        ∀ c ∈ rests'.flatten, c.multiplicity = L.multiplicity c.label := by
  induction hf with
  | nil => exact ⟨[], [], .nil, .nil, .nil, List.forall_mem_nil _⟩
  | cons h _ ih =>
    obtain ⟨u, cs, hu, hn, hm, hcs⟩ := h
    obtain ⟨fs, rests', hfs, hnodes, hsame, hmult⟩ := ih
    refine ⟨u :: fs, cs :: rests', .cons ?_ hfs, .cons hn hnodes, .cons hcs hsame, ?_⟩
    · rw [frameTerm, hu]
    · rw [List.flatten_cons]
      exact List.forall_mem_append.mpr ⟨hm, hmult⟩

/-- Where no content and no frame is bound, the group of cells is made of the very cells. -/
theorem codes_of_not_touches (hn : v.node = .cells (SortedList.sort CellParts.compareCells es)
      (SortedList.sort CellParts.compareFrames frames)) (htouch : σ.touches v = false)
    (hds : List.Forall₂ (fun e d : Cell => d.label = e.label ∧ IsInstance σ e.content d.content) es ds)
    (hf : List.Forall₂ (NamesCells L σ) frames rests) :
    frames = [] ∧ es.map cellCode = (ds ++ rests.flatten).map cellCode := by
  have hvar : v.isVar = false := by rw [Term.isVar, hn]; rfl
  have hframes : frames = [] := by
    refine List.eq_nil_iff_forall_not_mem.mpr fun w hw => ?_
    obtain ⟨rest, -, hrest⟩ := PairedLists.exists_mem hf hw
    rw [touches_eq hvar, Bool.or_eq_false_iff] at htouch
    refine List.any_eq_false.mp htouch.2 w ?_ (contains_of_namesCells hrest)
    rw [Term.frames, hn]
    exact SortedList.mem_sort.mpr hw
  subst hframes
  cases hf
  refine ⟨rfl, ?_⟩
  rw [List.flatten_nil, List.append_nil]
  refine PairedLists.map_eq (PairedLists.imp_mem hds fun e he d _ h => ?_)
  have hcontent : σ.touches e.content = false := by
    by_contra hno
    rw [Bool.not_eq_false] at hno
    rw [touches_child (t := v) _ hno] at htouch
    · cases htouch
    · rw [Term.children, hn]
      exact List.mem_map_of_mem (SortedList.mem_sort.mpr he)
  have hinst := h.2
  rw [IsInstance, instantiate_of_not_touches hcontent] at hinst
  rw [cellCode, cellCode, h.1, Term.beq_iff.mp (hinst.returns e.content ⟨0, 0, rfl⟩)]

/-- A group of the instances of the contents and of the cells that the frames name is the instance of the
group. -/
theorem isInstance_cells (hes : ∀ e ∈ es, e.multiplicity = L.multiplicity e.label) (hne : es ≠ [])
    (hv : CanReturn (CellParts.build ⟨es, frames⟩) v)
    (hds : List.Forall₂ (fun e d : Cell => d.label = e.label ∧ IsInstance σ e.content d.content) es ds)
    (hf : List.Forall₂ (NamesCells L σ) frames rests)
    (hmade : ∀ c ∈ made, c.multiplicity = L.multiplicity c.label)
    (hperm : (made.map cellCode).Perm ((ds ++ rests.flatten).map cellCode))
    (ht : CanReturn (CellParts.build { cells := made }) t) : IsInstance σ v t := by
  have hn := Term.node_of_build hne hv
  obtain ⟨m, m', hrun⟩ := ht
  cases htouch : σ.touches v with
  | false =>
    obtain ⟨rfl, hcodes⟩ := codes_of_not_touches hn htouch hds hf
    rw [IsInstance, instantiate_of_not_touches htouch]
    have hagree : Agree (fun t u : Term => t == u) (CellParts.build { cells := es }) (CellParts.build { cells := made }) :=
      CellParts.agree_build_perm hes hmade (hcodes ▸ hperm.symm) rfl hne
    exact .pure ((hagree.always_of_eq hrun).returns v hv)
  | true =>
    have hvar : v.isVar = false := by rw [Term.isVar, hn]; rfl
    obtain ⟨ds', hds', hdperm⟩ := List.perm_comp_forall₂ (SortedList.perm_sort es) hds
    obtain ⟨rests', hrests', hrperm⟩ := List.perm_comp_forall₂ (SortedList.perm_sort frames) hf
    obtain ⟨fs, rests'', hfs, hnodes, hsame, hmult⟩ := exists_frameTerms hrests'
    have hcontents : List.Forall₂ (fun c s => Always (σ.instantiate c) (· == s)) v.children
        (ds'.map (·.content)) := by
      rw [Term.children, hn, Node.children, List.forall₂_map_left_iff, List.forall₂_map_right_iff]
      exact hds'.imp fun _ _ h => h.2
    have hframes : List.Forall₂ (fun w f => Always (σ.frameTerm w) (· = f)) v.frames fs := by
      rw [Term.frames, hn]
      exact hfs.imp fun _ _ h => h ▸ .pure rfl
    rw [IsInstance, instantiate_eq htouch hvar]
    refine (Always.mapM_paired hcontents).bind fun xs hxs => ?_
    refine (Always.mapM_paired hframes).bind fun gs hgs => ?_
    rw [List.forall₂_eq_eq_eq] at hgs
    subst hgs
    rw [CellParts.rebuild_eq hn, Term.cellsFrom, CellParts.foldlM_concat_cells hnodes, pure_bind]
    refine (CellParts.agree_build_perm ?_ hmade ?_ rfl ?_).always_of_eq hrun
    · refine List.forall_mem_append.mpr ⟨fun c hc => ?_, hmult⟩
      obtain ⟨e, he, hlabel, hm⟩ := CellParts.of_mem_withContents hc
      rw [hm, hlabel, hes e (SortedList.mem_sort.mp he)]
    · rw [List.map_append, CellParts.withContents_codes (hds'.imp fun _ _ h => h.1) hxs,
        sameCells_flatten hsame, ← List.map_append]
      exact ((hdperm.append hrperm.flatten).map _).trans hperm.symm
    · intro hno
      have hlength : (SortedList.sort CellParts.compareCells es).length = xs.length := by
        rw [hds'.length_eq, hxs.length_eq, List.length_map]
      have hlabels := CellParts.map_withContents (f := (·.label)) (fun _ _ => rfl) hlength
      have hnil : CellParts.withContents (SortedList.sort CellParts.compareCells es) xs = [] :=
        (List.append_eq_nil_iff.mp hno).1
      rw [hnil, List.map_nil, eq_comm, List.map_eq_nil_iff] at hlabels
      exact hne (List.nil_perm.mp (hlabels ▸ SortedList.perm_sort es))

end Cells

end Substitution

end RuleCompiler
