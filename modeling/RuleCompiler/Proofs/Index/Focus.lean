import RuleCompiler.Proofs.Index.Match

/-! # The computation cell of pattern and subject

A definition with a computation cell files a term under the content of that cell. A match takes
every cell of the pattern to a cell of the subject with the same label, so a subject with one
computation cell at most is searched where the pattern is. -/

namespace RuleCompiler

open Matching
open Term (Tidy)

namespace Term

theorem zip_children_cells {α : Type} (cs : List Cell) (f : Term → α) :
    cs.zip ((cs.map (·.content)).map f) = cs.map fun c => (c, f c.content) := by
  induction cs with
  | nil => rfl
  | cons c cs ih => rw [List.map_cons, List.map_cons, List.zip_cons_cons, ih, List.map_cons]

theorem findCell?_eq (label : String) (t : Term) : t.findCell? label = match t.node with
    | .rewrite l _ => if l.isRewrite then none else l.findCell? label
    | .cells cs _ =>
      match cs.filter (·.label == label) with
      | [cell] => some cell.content
      | _ => cs.findSome? fun c => if c.label == label then none else c.content.findCell? label
    | _ => none := by
  rw [findCell?, fold_eq, ← findCell?, children]
  cases t.node with
  | cells cs fs =>
    dsimp only [Node.children]
    rw [zip_children_cells, List.findSome?_map]
    rfl
  | _ => rfl

/-- The contents of all cells of the label, where none is looked for inside another. -/
def cellsLabelled (label : String) : Term → List Term :=
  fold fun t below => match t.node, below with
    | .rewrite l _, left :: _ => if l.isRewrite then [] else left
    | .cells cs _, below =>
      (cs.zip below).flatMap fun (c, inner) => if c.label == label then [c.content] else inner
    | _, _ => []

theorem cellsLabelled_eq (label : String) (t : Term) : t.cellsLabelled label = match t.node with
    | .rewrite l _ => if l.isRewrite then [] else l.cellsLabelled label
    | .cells cs _ =>
      cs.flatMap fun c => if c.label == label then [c.content] else c.content.cellsLabelled label
    | _ => [] := by
  rw [cellsLabelled, fold_eq, ← cellsLabelled, children]
  cases t.node with
  | cells cs fs =>
    dsimp only [Node.children]
    rw [zip_children_cells, List.flatMap_map]
  | _ => rfl

/-- The cell that a search finds is one of its label. -/
theorem mem_of_findCell? {label : String} {t c : Term} (h : t.findCell? label = some c) :
    c ∈ t.cellsLabelled label := by
  induction t using Term.induction with
  | h t ih =>
    have hchild : ∀ u ∈ t.node.children, u.findCell? label = some c → c ∈ u.cellsLabelled label :=
      ih
    rw [findCell?_eq] at h
    rw [cellsLabelled_eq]
    cases hn : t.node with
    | rewrite l r =>
      rw [hn] at h hchild
      dsimp only at h ⊢
      split at h
      · cases h
      · rename_i hl
        rw [if_neg hl]
        exact hchild l List.mem_cons_self h
    | cells cs fs =>
      rw [hn] at h hchild
      dsimp only at h ⊢
      rw [List.mem_flatMap]
      split at h
      · rename_i cell hcell
        obtain ⟨hmem, hlabel⟩ := List.mem_filter.mp (hcell ▸ List.mem_singleton_self cell)
        cases h
        exact ⟨cell, hmem, by rw [if_pos hlabel]; exact List.mem_singleton_self _⟩
      · obtain ⟨cell, hmem, hcell⟩ := List.exists_of_findSome?_eq_some h
        split at hcell
        · cases hcell
        · rename_i hlabel
          refine ⟨cell, hmem, ?_⟩
          rw [if_neg hlabel]
          exact hchild _ (List.mem_map_of_mem hmem) hcell
    | _ => rw [hn] at h; cases h

theorem findCell?_of_nil {label : String} {t : Term} (h : t.cellsLabelled label = []) :
    t.findCell? label = none :=
  Option.eq_none_iff_forall_not_mem.mpr fun _ hc => List.not_mem_nil (h ▸ mem_of_findCell? hc)

/-- The only answer among many searches is the first one. -/
theorem findSome?_of_flatMap {α β : Type} {f : α → List β} {g : α → Option β} {l : List α} {b : β}
    (h : l.flatMap f = [b]) (hone : ∀ a ∈ l, f a = [b] → g a = some b)
    (hnone : ∀ a ∈ l, f a = [] → g a = none) : l.findSome? g = some b := by
  induction l with
  | nil => cases h
  | cons a l ih =>
    rw [List.flatMap_cons, List.append_eq_singleton_iff] at h
    rw [List.findSome?_cons]
    rcases h with ⟨ha, hl⟩ | ⟨ha, -⟩
    · rw [hnone a List.mem_cons_self ha]
      exact ih hl (fun a h => hone a (List.mem_cons_of_mem _ h))
        fun a h => hnone a (List.mem_cons_of_mem _ h)
    · rw [hone a List.mem_cons_self ha]

theorem sublist_flatMap {α β : Type} {f : α → List β} {p : α → Bool} {g : α → β} (l : List α)
    (h : ∀ a, p a → f a = [g a]) : ((l.filter p).map g).Sublist (l.flatMap f) := by
  induction l with
  | nil => exact .slnil
  | cons a l ih =>
    rw [List.flatMap_cons]
    cases ha : p a with
    | true =>
      rw [List.filter_cons_of_pos ha, List.map_cons, h a ha]
      exact ih.cons_cons (g a)
    | false =>
      rw [List.filter_cons_of_neg (by simp [ha])]
      exact ih.trans (List.sublist_append_right _ _)

/-- The only cell of a label is found. -/
theorem findCell?_of_single {label : String} {t c : Term} (h : t.cellsLabelled label = [c]) :
    t.findCell? label = some c := by
  induction t using Term.induction with
  | h t ih =>
    have hchild : ∀ u ∈ t.node.children, u.cellsLabelled label = [c] → u.findCell? label = some c :=
      ih
    rw [cellsLabelled_eq] at h
    rw [findCell?_eq]
    cases hn : t.node with
    | rewrite l r =>
      rw [hn] at h hchild
      dsimp only at h ⊢
      split at h
      · cases h
      · rename_i hl
        rw [if_neg hl]
        exact hchild l List.mem_cons_self h
    | cells cs fs =>
      rw [hn] at h hchild
      dsimp only at h ⊢
      have hhere : ((cs.filter (·.label == label)).map (·.content)).Sublist [c] := by
        rw [← h]
        exact sublist_flatMap cs fun c hc => by rw [if_pos hc]
      split
      · rename_i cell hcell
        rw [hcell] at hhere
        cases (List.sublist_singleton.mp hhere).resolve_left (List.cons_ne_nil _ _)
        rfl
      · rename_i hmany
        have hother : cs.filter (·.label == label) = [] := by
          rcases List.sublist_singleton.mp hhere with hnil | hsingle
          · exact List.map_eq_nil_iff.mp hnil
          · obtain ⟨cell, hcell, -⟩ := List.map_eq_singleton_iff.mp hsingle
            exact absurd hcell (hmany cell)
        refine findSome?_of_flatMap h (fun a ha h => ?_) fun a ha h => ?_
        all_goals
          have hlabel := List.filter_eq_nil_iff.mp hother a ha
          rw [if_neg hlabel] at h ⊢
        · exact hchild _ (List.mem_map_of_mem ha) h
        · exact findCell?_of_nil h
    | _ => rw [hn] at h; cases h

/-- What relates the contents of cells of one label relates the cells that are looked for. -/
theorem exists_cellsLabelled {label : String} {t u : Term} {cs cs' : List Cell}
    {fs fs' : List Var} {P : Term → Term → Prop} (ht : t.node = .cells cs fs)
    (hu : u.node = .cells cs' fs')
    (h : ∀ cell ∈ cs, ∃ cell' ∈ cs', cell'.label = cell.label ∧ P cell.content cell'.content ∧
      ∀ c ∈ cell.content.cellsLabelled label, ∃ c' ∈ cell'.content.cellsLabelled label, P c c') :
    ∀ c ∈ t.cellsLabelled label, ∃ c' ∈ u.cellsLabelled label, P c c' := by
  intro c hc
  rw [cellsLabelled_eq, ht] at hc
  rw [cellsLabelled_eq, hu]
  obtain ⟨cell, hcell, hc⟩ := List.mem_flatMap.mp hc
  obtain ⟨cell', hcell', hlabel, hcontent, hbelow⟩ := h cell hcell
  have hin (c' : Term) (hc' : c' ∈ if cell'.label == label then [cell'.content] else
      cell'.content.cellsLabelled label) : c' ∈ cs'.flatMap fun c =>
        if c.label == label then [c.content] else c.content.cellsLabelled label :=
    List.mem_flatMap.mpr ⟨cell', hcell', hc'⟩
  rw [hlabel] at hin
  by_cases hl : cell.label == label
  · rw [if_pos hl] at hc hin
    cases List.mem_singleton.mp hc
    exact ⟨cell'.content, hin _ (List.mem_singleton_self _), hcontent⟩
  · rw [if_neg hl] at hc hin
    obtain ⟨c', hc', hP⟩ := hbelow c hc
    exact ⟨c', hin c' hc', hP⟩

theorem cellsLabelled_congr (label : String) {t u : Term} (h : t == u) :
    List.Forall₂ (fun c d => c == d) (t.cellsLabelled label) (u.cellsLabelled label) := by
  induction t using Term.induction generalizing u with
  | h t ih =>
    have h := alike_of_beq h
    have hchild : ∀ c ∈ t.node.children, ∀ {d : Term}, c == d →
      List.Forall₂ (fun c d => c == d) (c.cellsLabelled label) (d.cellsLabelled label) := ih
    rw [cellsLabelled_eq, cellsLabelled_eq]
    generalize t.node = m, u.node = n at h hchild
    cases h with
    | @rewrite l _ l' _ hl hr =>
      dsimp only
      rw [isRewrite_congr hl]
      split
      · exact .nil
      · exact hchild l List.mem_cons_self hl
    | @cells cs cs' fs h =>
      dsimp only
      replace hchild : ∀ c ∈ cs, ∀ {d : Term}, c.content == d → List.Forall₂ (fun c d => c == d)
          (c.content.cellsLabelled label) (d.cellsLabelled label) :=
        fun c hc => hchild c.content (List.mem_map_of_mem hc)
      induction h with
      | nil => exact .nil
      | @cons c c' _ _ hc _ ih =>
        rw [List.flatMap_cons, List.flatMap_cons, hc.1]
        refine List.rel_append ?_ (ih fun c h => hchild c (List.mem_cons_of_mem _ h))
        split
        · exact .cons hc.2.2 .nil
        · exact hchild c List.mem_cons_self hc.2.2
    | _ => exact .nil

end Term

/-! ### Every match -/

/-- What the index relies on in a subject: it is tidy, and its frozen applications have one hole at
most. -/
structure Term.IsIndexable (t : Term) : Prop where
  tidy : Tidy true t
  holes : t.hasSingleHoles

theorem Term.IsIndexable.child {t c : Term} (h : t.IsIndexable) (hc : c ∈ t.children) :
    c.IsIndexable :=
  ⟨tidy_child h.tidy (by rwa [sides_true]), (hasSingleHoles_iff.mp h.holes).2 c hc⟩

/-- Pattern and subject agree, and so does every cell of the pattern with one of the subject. -/
structure Matched (settings : IndexSettings) (p s : Term) : Prop where
  agrees : Agrees settings p s
  cells : ∀ label, ∀ c ∈ p.cellsLabelled label, ∃ c' ∈ s.cellsLabelled label, Agrees settings c c'

section Matched
variable {settings : IndexSettings} {σ : Substitution} {p s : Term}

/-- A term in which no cell is looked for is matched when it agrees. -/
theorem Agrees.matched (h : Agrees settings p s) (hp : ∀ label, p.cellsLabelled label = []) :
    Matched settings p s :=
  ⟨h, fun label c hc => by rw [hp] at hc; cases hc⟩

theorem matched_of_beq (h : p == s) : Matched settings p s := by
  refine ⟨.of_beq h, fun label c hc => ?_⟩
  obtain ⟨c', hc', heq⟩ := PairedLists.exists_mem (Term.cellsLabelled_congr label h) hc
  exact ⟨c', hc', .of_beq heq⟩

theorem matched_of_rewrite {l r : Term} (hp : p.node = .rewrite l r) (h : Matched settings l s) :
    Matched settings p s := by
  refine ⟨.of_rewrite hp h.agrees, fun label c hc => ?_⟩
  rw [Term.cellsLabelled_eq, hp] at hc
  dsimp only at hc
  split at hc
  · cases hc
  · exact h.cells label c hc

theorem matched_of_cells {cs cs' : List Cell} {fs fs' : List Var} (hp : p.node = .cells cs fs)
    (hs : s.node = .cells cs' fs') (hptidy : p.node.isTidy) (hstidy : s.node.isTidy)
    (h : CellsFit (Matched settings) σ fs' fs cs (cs'.mapIdx fun i c => (i, c))) :
    Matched settings p s := by
  refine ⟨.of_cells hp hs hptidy hstidy h, fun label c hc => ?_⟩
  obtain ⟨used, rest, r, hperm, hused, -⟩ := exists_rest_of_cells h
  refine Term.exists_cellsLabelled hp hs (fun cell hcell => ?_) c hc
  obtain ⟨cell', hcell', hlabel, hmatched⟩ := PairedLists.exists_mem hused hcell
  have hmem : cell' ∈ cs' := hperm.mem_iff.mpr (List.mem_append_left _ hcell')
  exact ⟨cell', hmem, hlabel, hmatched.agrees, hmatched.cells label⟩

/-- The items that a subject shows to a sequence pattern are its children or the subject. -/
theorem mem_sequenceView {t : Term} (h : t ∈ (sequenceView s).1) : t ∈ s.children ∨ t = s := by
  unfold sequenceView at h
  split at h
  · rename_i hs
    rw [Term.children, hs]
    exact .inl h
  · split at h
    · cases h
    · exact .inr (List.mem_singleton.mp h)
  · exact .inr (List.mem_singleton.mp h)

/-- Where pattern and subject fit, what the index relies on holds of the whole if it does of the
parts. -/
theorem matched_of_fits (h : Fits (fun _ p s => Tidy false p → s.IsIndexable → Matched settings p s)
    σ p s) (hp : Tidy false p) (hs : s.IsIndexable) : Matched settings p s := by
  have hptidy := (Term.tidy_iff.mp hp).1
  have hpart {c : Term} (hr : p.isRewrite = false) (hc : c ∈ p.children) : Tidy false c :=
    Term.tidy_child hp (by rwa [Term.sides_of_not_rewrite hr])
  cases h with
  | same _ h => exact matched_of_beq h
  | var hn h => exact (Agrees.of_var hn h).matched fun _ => by rw [Term.cellsLabelled_eq, hn]
  | rewrite hn h =>
    refine matched_of_rewrite hn (h (Term.tidy_child hp ?_) hs)
    rw [Term.sides, hn]
    exact List.mem_cons_self
  | disjunction hn => exact (Agrees.of_disjunction hn).matched fun _ => by rw [Term.cellsLabelled_eq, hn]
  | app hn hsn h =>
    refine (Agrees.of_app hn hsn (PairedLists.imp_mem h fun c hc d hd h => ?_)).matched fun _ => by
      rw [Term.cellsLabelled_eq, hn]
    refine (h (hpart (by rw [Term.isRewrite, hn]) ?_) (hs.child ?_)).agrees
    · rwa [Term.children, hn]
    · rwa [Term.children, hsn]
  | freezer hn hsn h =>
    have hg := hs.child (c := _) (by rw [Term.children, hsn]; exact List.mem_cons_self)
    have hf := hpart (by rw [Term.isRewrite, hn]) (by rw [Term.children, hn]; exact List.mem_cons_self)
    refine (Agrees.of_freezer hn hsn (h hf hg).agrees ?_).matched fun _ => by
      rw [Term.cellsLabelled_eq, hn]
    exact (Term.hasSingleHoles_iff.mp hs.holes).1 _ _ _ hsn
  | sequence hn h =>
    refine (Agrees.of_sequence hn hptidy (h.imp_mem fun c hc d hd h => ?_)).matched fun _ => by
      rw [Term.cellsLabelled_eq, hn]
    refine (h (hpart (by rw [Term.isRewrite, hn]) (by rwa [Term.children, hn])) ?_).agrees
    rcases mem_sequenceView hd with hd | rfl
    · exact hs.child hd
    · exact hs
  | list hn hsn => exact (Agrees.of_list hn hsn).matched fun _ => by rw [Term.cellsLabelled_eq, hn]
  | map hn hsn => exact (Agrees.of_map hn hsn).matched fun _ => by rw [Term.cellsLabelled_eq, hn]
  | set hn hsn => exact (Agrees.of_set hn hsn).matched fun _ => by rw [Term.cellsLabelled_eq, hn]
  | cells hn hsn h =>
    refine matched_of_cells hn hsn hptidy (Term.tidy_iff.mp hs.tidy).1 (h.imp_mem fun c hc u hu h => ?_)
    refine h (hpart (by rw [Term.isRewrite, hn]) ?_) (hs.child ?_)
    · rw [Term.children, hn]
      exact List.mem_map_of_mem hc
    · have hcell := List.mem_map_of_mem (f := (·.2)) hu
      rw [map_snd_mapIdx] at hcell
      rw [Term.children, hsn]
      exact List.mem_map_of_mem hcell

end Matched

end RuleCompiler
