import RuleCompiler.Proofs.Index.Focus
import RuleCompiler.Proofs.Term.Walk

/-! # Bodies and their left sides

A rule is filed under the pair of its body and matched by its left side. Where the rewrites of the
body are lifted, both have the same pairs. -/

namespace RuleCompiler

open Term (Tidy)

namespace Term

/-- Whether every rewrite stands at the top or is the whole content of a cell. -/
def isLifted : Term → Bool :=
  fold fun t below => match t.node with
    | .rewrite l _ => !l.hasRewrite
    | .cells .. => below.all id
    | _ => !t.hasRewrite

theorem isLifted_eq (t : Term) : t.isLifted = match t.node with
    | .rewrite l _ => !l.hasRewrite
    | .cells cs _ => cs.all (·.content.isLifted)
    | _ => !t.hasRewrite := by
  rw [isLifted, fold_eq, ← isLifted, children]
  cases t.node with
  | cells cs fs =>
    dsimp only [Node.children]
    rw [List.map_map, List.all_map]
    rfl
  | _ => rfl

/-! ### Untouched terms -/

/-- A node whose children stay as they are stays as it is. -/
theorem returns_update_self {t : Term} {f : Term → Build Term}
    (hf : ∀ c ∈ t.children, Returns (· = c) (f c)) :
    Returns (· = t) (t.update (t.children.map f) pure) := by
  unfold update
  refine .bind' fun start => ?_
  rw [List.mapM_map]
  have hchildren : Returns (· = t.children) (t.children.mapM (id ∘ f)) :=
    (Returns.mapM (q := fun c c' => c' = c) hf).mono fun cs hcs => by
      have heq : List.Forall₂ (· = ·) t.children cs := hcs.imp fun _ _ h => h.symm
      rw [List.forall₂_eq_eq_eq] at heq
      exact heq.symm
  refine hchildren.bind fun cs hcs => ?_
  subst hcs
  have hframes : Returns (fun fs : List (Term × Term) => ∀ f ∈ fs, f.1 = f.2)
      (t.frames.mapM fun v => do
        let node ← liftM (var v)
        return (node, ← (pure node : Build Term))) :=
    .mapM_all fun v _ => .bind' fun u => .bind (q := fun w => u = w) (.pure rfl) fun _ h => .pure h
  refine hframes.bind fun fs hfs => .ite (fun _ => .pure rfl) fun h => ?_
  refine absurd ?_ h
  rw [Bool.and_eq_true, List.all_eq_true]
  refine ⟨allSame_self _, fun ⟨old, new⟩ hf => ?_⟩
  cases hfs _ hf
  exact same_self old

theorem isRewrite_of_hasRewrite {t : Term} (h : t.hasRewrite = false) : t.isRewrite = false := by
  rw [hasRewrite, anyNode_eq] at h
  simp_all

theorem hasRewrite_child {t c : Term} (h : t.hasRewrite = false) (hc : c ∈ t.children) :
    c.hasRewrite = false := by
  rw [hasRewrite, anyNode_eq, Bool.or_eq_false_iff, Bool.or_eq_false_iff] at h
  rw [hasRewrite]
  simpa using List.any_eq_false.mp h.1.2 c hc

/-- A term without rewrites is its own left side. -/
theorem returns_leftSide_self {t : Term} (h : t.hasRewrite = false) :
    Returns (· = t) t.leftSide := by
  induction t using Term.induction with
  | h t ih =>
    have hr := isRewrite_of_hasRewrite h
    rw [leftSide_eq]
    split
    · rename_i hn
      rw [isRewrite, hn] at hr
      cases hr
    · exact returns_update_self fun c hc => ih c hc (hasRewrite_child h hc)

/-! ### Changed cells -/

theorem returns_concatFrames :
    ∀ {frames : List Term} {p : CellParts}, (∀ f ∈ frames, f.isVar) →
      Returns (fun q => q.cells = p.cells ∧ q.frames.length = p.frames.length + frames.length)
        (frames.foldlM CellParts.concat p)
  | [], p, _ => .pure ⟨rfl, rfl⟩
  | f :: fs, p, h => by
    have hf := h f List.mem_cons_self
    rw [List.foldlM_cons]
    have hconcat : Returns (fun q => q.cells = p.cells ∧ q.frames.length = p.frames.length + 1)
        (p.concat f) := by
      unfold CellParts.concat
      split
      · rename_i hn
        rw [isVar, hn] at hf
        cases hf
      · exact .pure ⟨rfl, List.length_append⟩
      · rename_i hn
        obtain ⟨m, n⟩ := f
        cases n with
        | var v => exact absurd rfl (hn v)
        | _ => cases hf
    refine hconcat.bind fun q hq => ?_
    refine (returns_concatFrames fun g hg => h g (List.mem_cons_of_mem _ hg)).mono fun q' hq' => ?_
    rw [hq'.1, hq'.2, hq.1, hq.2, List.length_cons]
    exact ⟨rfl, by omega⟩

/-- The cells have the labels of those in `cs`, with contents that are related to theirs, and as
many frames. -/
def CellsLike (Q : Term → Term → Prop) (cs : List Cell) (frames : Nat) (u : Term) : Prop :=
  ∃ cs' fs, u.node = .cells cs' fs ∧ fs.length = frames ∧
    ∃ cs'', cs'.Perm cs'' ∧
      List.Forall₂ (fun c c' : Cell => c'.label = c.label ∧ Q c.content c'.content) cs cs''

section CellsLike
variable {t : Term} {cs : List Cell} {fs : List Var} {Q : Term → Term → Prop}

theorem returns_rebuild_cells {us frames : List Term} (hn : t.node = .cells cs fs) (hcs : cs ≠ [])
    (hus : List.Forall₂ (fun c u => Q c.content u) cs us) (hframes : ∀ f ∈ frames, f.isVar) :
    Returns (CellsLike Q cs frames.length) (t.rebuild us frames) := by
  have hcells : List.Forall₂ (fun c c' : Cell => c'.label = c.label ∧ Q c.content c'.content) cs
      (cs.zipWith (fun cell content => { cell with content }) us) := by
    clear hn hcs
    induction hus with
    | nil => exact .nil
    | cons h _ ih => exact .cons ⟨rfl, h⟩ ih
  have hlen := hcells.length_eq
  rw [rebuild.eq_def, hn]
  dsimp only [cellsFrom]
  refine (returns_concatFrames hframes).bind fun q hq => q.returns_build.mono fun u hu => ?_
  rcases hu with ⟨hnil, -⟩ | hu
  · have hnil := congrArg List.length (hq.1.symm.trans hnil)
    exact absurd (List.length_eq_zero_iff.mp (hlen.trans hnil)) hcs
  · refine ⟨_, _, hu, ?_, _, SortedList.perm_sort _, hq.1 ▸ hcells⟩
    rw [(SortedList.perm_sort _).length_eq, hq.2, List.length_nil, Nat.zero_add]

/-- A group of cells with other contents is a group of cells with the same labels. -/
theorem returns_update_cells {f : Term → Build Term} (hn : t.node = .cells cs fs)
    (hQ : ∀ c, Q c c) (hf : ∀ c ∈ cs, Returns (Q c.content) (f c.content)) :
    Returns (CellsLike Q cs fs.length) (t.update (t.children.map f) pure) := by
  have hself : CellsLike Q cs fs.length t :=
    ⟨cs, fs, hn, rfl, cs, .refl _, List.forall₂_same.mpr fun c _ => ⟨rfl, hQ _⟩⟩
  unfold update
  refine .bind' fun start => ?_
  rw [List.mapM_map, children, hn, frames, hn]
  dsimp only [Node.children, Node.frames]
  have hchildren : Returns (List.Forall₂ (fun c u => Q c.content u) cs)
      ((cs.map (·.content)).mapM (id ∘ f)) := by
    rw [List.mapM_map]
    exact .mapM hf
  refine hchildren.bind fun us hus => ?_
  have hframes : Returns (List.Forall₂ (fun v (e : Term × Term) => e.1 = e.2 ∧ e.2.node = .var v) fs)
      (fs.mapM fun v => do
        let node ← liftM (var v)
        return (node, ← (pure node : Build Term))) :=
    .mapM fun v _ => (returns_var v).bind fun u hu => .bind (q := fun w => u = w) (.pure rfl)
      fun w hw => .pure ⟨hw, hw ▸ hu⟩
  refine hframes.bind fun es hes => .ite (fun _ => .pure hself) fun h => ?_
  have hes' (e : Term × Term) (he : e ∈ es) : e.1 = e.2 ∧ e.2.isVar := by
    obtain ⟨v, -, hold, hv⟩ := PairedLists.exists_mem hes.flip he
    exact ⟨hold, by rw [isVar, hv]; rfl⟩
  have hcs : cs ≠ [] := by
    rintro rfl
    cases hus
    refine h (List.all_eq_true.mpr fun e he => ?_)
    rw [(hes' e he).1]
    exact same_self e.2
  have hvars : ∀ f ∈ es.map (·.2), f.isVar := by
    intro f hf
    obtain ⟨e, he, rfl⟩ := List.mem_map.mp hf
    exact (hes' e he).2
  have hrebuild := returns_rebuild_cells hn hcs hus hvars
  rw [List.length_map, ← hes.length_eq] at hrebuild
  refine Returns.bind (.lift hrebuild) fun u hu => .pure ?_
  split
  · unfold CellsLike
    rwa [makeEditable_node]
  · exact hu

end CellsLike

end Term

/-! ### Pairs of the left side -/

/-- The terms have one pair, whatever the settings, and none is an operator list without the
other. -/
structure SamePair (t u : Term) : Prop where
  pair : ∀ settings : IndexSettings, settings.pairOf u = settings.pairOf t
  operator : u.isOperatorList = t.isOperatorList

/-- The terms have one pair, and so has every cell of the first with some cell of the second. -/
structure FiledAs (t u : Term) : Prop where
  same : SamePair t u
  cells : ∀ label, ∀ c ∈ t.cellsLabelled label, ∃ c' ∈ u.cellsLabelled label, SamePair c c'

namespace FiledAs
open Term

theorem refl (t : Term) : FiledAs t t := ⟨⟨fun _ => rfl, rfl⟩, fun _ c hc => ⟨c, hc, fun _ => rfl, rfl⟩⟩

variable {t u : Term}

theorem of_rewrite {l r : Term} (hn : t.node = .rewrite l r) (hl : l.isRewrite = false) :
    FiledAs t l := by
  refine ⟨⟨fun settings => ?_, ?_⟩, fun label c hc => ⟨c, ?_, fun _ => rfl, rfl⟩⟩
  · rw [settings.pairOf_eq t, hn]
  · rw [isOperatorList_eq t, hn]
  · rw [cellsLabelled_eq, hn] at hc
    simpa [hl] using hc

theorem of_cells {cs : List Cell} {fs : List Var} (hn : t.node = .cells cs fs)
    (ht : t.node.isTidy) (hu : u.node.isTidy) (h : CellsLike FiledAs cs fs.length u) :
    FiledAs t u := by
  obtain ⟨cs', fs', hun, hfs, cs'', hperm, hcs⟩ := h
  have hlabels : cs''.map (·.label) = cs.map (·.label) := by
    have hmap : List.Forall₂ (· = ·) (cs''.map (·.label)) (cs.map (·.label)) := by
      rw [List.forall₂_map_left_iff, List.forall₂_map_right_iff]
      exact hcs.flip.imp fun _ _ h => h.1
    rwa [List.forall₂_eq_eq_eq] at hmap
  refine ⟨⟨fun settings => ?_, ?_⟩, fun label c hc => ?_⟩
  · rw [hn, Node.isTidy, decide_eq_true_eq] at ht
    rw [hun, Node.isTidy, decide_eq_true_eq] at hu
    have heq : cs'.map (·.label) = cs.map (·.label) := by
      refine Matching.eq_of_perm_sorted ?_ (List.pairwise_map.mpr hu) (List.pairwise_map.mpr ht)
      rw [← hlabels]
      exact hperm.map _
    have hindices := congrArg (List.map Index.label) heq
    rw [List.map_map, List.map_map] at hindices
    have hframes : fs'.isEmpty = fs.isEmpty := by
      rw [Bool.eq_iff_iff, List.isEmpty_iff_length_eq_zero, List.isEmpty_iff_length_eq_zero, hfs]
    rw [settings.pairOf_eq, settings.pairOf_eq, hn, hun]
    dsimp only
    rw [hframes, ← Function.comp_def Index.label, hindices]
  · rw [isOperatorList_eq, isOperatorList_eq, hn, hun]
  · refine exists_cellsLabelled hn hun (fun cell hcell => ?_) c hc
    obtain ⟨cell', hcell', hlabel, hfiled⟩ := PairedLists.exists_mem hcs hcell
    exact ⟨cell', hperm.mem_iff.mpr hcell', hlabel, hfiled.same, hfiled.cells label⟩

end FiledAs

/-- The left side of a lifted body is filed as the body is. -/
theorem filedAs_leftSide {t : Term} (h : t.isLifted) (ht : Tidy false t) :
    Returns (FiledAs t) t.leftSide := by
  induction t using Term.induction with
  | h t ih =>
    have htidy := Term.tidy_leftSide ht
    have hchild : ∀ c ∈ t.node.children, c.isLifted → Tidy false c →
      Returns (FiledAs c) c.leftSide := ih
    have hself (hr : t.hasRewrite = false) : Returns (FiledAs t) t.leftSide :=
      (Term.returns_leftSide_self hr).mono fun _ h => h ▸ .refl t
    rw [Term.isLifted_eq] at h
    cases hn : t.node with
    | rewrite l r =>
      rw [hn, Bool.not_eq_true'] at h
      rw [Term.leftSide_eq, hn]
      refine (Term.returns_leftSide_self h).mono fun u hu => ?_
      rw [hu]
      exact .of_rewrite hn (Term.isRewrite_of_hasRewrite h)
    | cells cs fs =>
      rw [hn] at h hchild
      have hupdate : Returns (Term.CellsLike FiledAs cs fs.length) t.leftSide := by
        rw [Term.leftSide_eq, hn]
        refine Term.returns_update_cells hn FiledAs.refl fun c hc => ?_
        have hmem := List.mem_map_of_mem (f := (·.content)) hc
        refine hchild c.content hmem (List.all_eq_true.mp h c hc) (Term.tidy_child ht ?_)
        rwa [Term.sides_of_not_rewrite (by rw [Term.isRewrite, hn]), Term.children, hn]
      refine (htidy.and hupdate).mono fun u hu => ?_
      exact .of_cells hn (Term.tidy_iff.mp ht).1 (Term.tidy_iff.mp hu.1).1 hu.2
    | _ =>
      rw [hn, Bool.not_eq_true'] at h
      exact hself h

end RuleCompiler
