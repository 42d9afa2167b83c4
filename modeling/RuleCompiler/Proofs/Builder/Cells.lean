import RuleCompiler.Proofs.Builder.Ground

/-! # Cells of ground terms

A group of cells is made again from some of its cells and from a group of the others. -/

namespace RuleCompiler

open Build (Always)

namespace CellParts

instance : Std.TransCmp fun c d : Cell => compare c.label d.label where
  eq_swap := Std.OrientedCmp.eq_swap
  isLE_trans := Std.TransCmp.isLE_trans

instance : Std.TransCmp fun c d : Cell => c.content.cmp d.content where
  eq_swap := Std.OrientedCmp.eq_swap
  isLE_trans := Std.TransCmp.isLE_trans

instance : Std.TransCmp compareCells :=
  inferInstanceAs (Std.TransCmp (compareLex (fun c d : Cell => compare c.label d.label)
    fun c d : Cell => c.content.cmp d.content))

instance : Std.TransCmp fun a b : String × List Symbol => compare a.1 b.1 where
  eq_swap := Std.OrientedCmp.eq_swap
  isLE_trans := Std.TransCmp.isLE_trans

instance : Std.TransCmp fun a b : String × List Symbol => Term.cmpCode a.2 b.2 where
  eq_swap := Std.OrientedCmp.eq_swap
  isLE_trans := Std.TransCmp.isLE_trans

/-- The order of cells, on what is written down. -/
abbrev compareCodes : String × List Symbol → String × List Symbol → Ordering :=
  compareLex (fun a b => compare a.1 b.1) fun a b => Term.cmpCode a.2 b.2

theorem isLE_antisymm {a b : String × List Symbol} (h : (compareCodes a b).isLE)
    (h' : (compareCodes b a).isLE) : a = b := by
  have heq := Std.OrientedCmp.isLE_antisymm h h'
  rw [show compareCodes a b = (compare a.1 b.1).then (Term.cmpCode a.2 b.2) from rfl,
    Ordering.then_eq_eq] at heq
  exact Prod.ext (Std.LawfulEqCmp.eq_of_compare heq.1) (Std.LawfulEqCmp.eq_of_compare heq.2)

/-- Whether the cells stand in order. -/
def isNormal (p : CellParts) : Bool := decide (p.cells.Pairwise fun c d => (compareCells c d).isLE)

/-- A cell written down, but for its multiplicity. -/
def cellCode (c : Cell) : String × List Symbol := (c.label, c.content.code)

variable {multiplicity : String → Multiplicity}

theorem build_eq (cs : List Cell) :
    build { cells := cs } = Term.new (.cells (SortedList.sort compareCells cs) []) := by
  unfold build
  split
  · cases ‹[] = [_]›
  · rfl

/-- Cells that are those of `s`, with the multiplicities that belong to their labels, make `s`. -/
theorem always_build {s : Term} {cs ss : List Cell} (hs : s.node = .cells ss [])
    (hnormal : isNormal { cells := ss }) (hcs : ∀ c ∈ cs, c.multiplicity = multiplicity c.label)
    (hss : ∀ c ∈ ss, c.multiplicity = multiplicity c.label)
    (h : (cs.map cellCode).Perm (ss.map cellCode)) : Always (build { cells := cs }) (· == s) := by
  rw [isNormal, decide_eq_true_eq] at hnormal
  have hsorted : (SortedList.sort compareCells cs).Pairwise fun c d => (compareCells c d).isLE :=
    SortedList.sorted_sort cs
  have hcodes : (SortedList.sort compareCells cs).map cellCode = ss.map cellCode := by
    refine SortedList.map_eq_of_perm (r := fun a b => (compareCodes a b).isLE) isLE_antisymm ?_
      hsorted hnormal
    exact ((SortedList.perm_sort cs).map _).trans h
  have hpairs : List.Forall₂ (fun c d : Cell => cellCode c = cellCode d)
      (SortedList.sort compareCells cs) ss := PairedLists.of_map_eq (fun _ _ h => h) hcodes
  rw [build_eq]
  refine (Term.always_new _).mono fun t ht => Term.beq_of_alike ?_
  rw [ht, hs]
  refine .cells (PairedLists.imp_mem hpairs fun c hc d hd hcd => ?_)
  rw [cellCode, cellCode, Prod.mk.injEq] at hcd
  refine ⟨hcd.1, ?_, Term.beq_iff.mpr hcd.2⟩
  rw [hcs c (SortedList.mem_sort.mp hc), hss d hd, hcd.1]

/-! #### Cells made again -/

/-- The cells with other contents. -/
abbrev withContents (cs : List Cell) (contents : List Term) : List Cell :=
  cs.zipWith (fun cell content => { cell with content }) contents

theorem withContents_codes {cs used : List Cell}
    (h : List.Forall₂ (fun c u : Cell => u.label = c.label) cs used) :
    ∀ {contents : List Term}, Term.Equal contents (used.map (·.content)) →
      (withContents cs contents).map cellCode = used.map cellCode := by
  induction h with
  | nil => exact fun _ => rfl
  | @cons c u cs used hlabel _ ih =>
    intro contents h
    cases h with
    | @cons content _ contents _ hcontent h =>
    rw [withContents, List.zipWith_cons_cons, List.map_cons, List.map_cons, ih h, cellCode, cellCode,
      hlabel, Term.beq_iff.mp hcontent]

theorem of_mem_withContents {cs : List Cell} {contents : List Term} {c : Cell}
    (h : c ∈ withContents cs contents) :
    ∃ d ∈ cs, c.label = d.label ∧ c.multiplicity = d.multiplicity := by
  induction cs generalizing contents with
  | nil => cases h
  | cons d cs ih =>
    cases contents with
    | nil => cases h
    | cons content contents =>
      rw [withContents, List.zipWith_cons_cons] at h
      rcases List.mem_cons.mp h with rfl | h
      · exact ⟨d, List.mem_cons_self, rfl, rfl⟩
      · obtain ⟨e, he, hc⟩ := ih h
        exact ⟨e, List.mem_cons_of_mem d he, hc⟩

theorem map_content_withContents {cs : List Cell} : ∀ {contents : List Term},
    cs.length = contents.length → (withContents cs contents).map (·.content) = contents := by
  induction cs with
  | nil => exact fun h => (List.length_eq_zero_iff.mp h.symm).symm
  | cons c cs ih =>
    intro contents h
    obtain ⟨content, contents, rfl⟩ := List.exists_cons_of_length_eq_add_one h.symm
    rw [withContents, List.zipWith_cons_cons, List.map_cons, ih (Nat.succ.inj h)]

/-- Only the contents change. -/
theorem map_withContents {α : Type} {f : Cell → α} (hf : ∀ (c : Cell) content, f { c with content } = f c)
    {cs : List Cell} : ∀ {contents : List Term}, cs.length = contents.length →
      (withContents cs contents).map f = cs.map f := by
  induction cs with
  | nil => exact fun _ => rfl
  | cons c cs ih =>
    intro contents h
    obtain ⟨content, contents, rfl⟩ := List.exists_cons_of_length_eq_add_one h.symm
    rw [withContents, List.zipWith_cons_cons, List.map_cons, List.map_cons, ih (Nat.succ.inj h), hf]

theorem rebuild_eq {t : Term} {cs : List Cell} {frames : List Var} (hn : t.node = .cells cs frames)
    (contents fs : List Term) :
    t.rebuild contents fs = Term.cellsFrom (withContents cs contents) fs := by
  unfold Term.rebuild
  rw [hn]

/-- A group of cells is made again from some of its cells and from a group of the others. -/
theorem always_rebuild {t s : Term} {cs ss used rest : List Cell} {frames : List Var}
    {contents fs fs' : List Term} (hn : t.node = .cells cs frames) (hs : s.node = .cells ss [])
    (hnormal : isNormal { cells := ss }) (hcs : ∀ c ∈ cs, c.multiplicity = multiplicity c.label)
    (hss : ∀ c ∈ ss, c.multiplicity = multiplicity c.label)
    (hused : List.Forall₂ (fun c u : Cell => u.label = c.label) cs used)
    (hperm : ss.Perm (used ++ rest))
    (hfs : (fs = [] ∧ rest = []) ∨
      ∃ r parts, fs = [r] ∧ r.node = .cells parts [] ∧ parts.Perm rest)
    (hcontents : Term.Equal contents (used.map (·.content))) (hfs' : Term.Equal fs' fs) :
    Always (t.rebuild contents fs') (· == s) := by
  have hnew : ∀ c ∈ withContents cs contents, c.multiplicity = multiplicity c.label := by
    intro c hc
    obtain ⟨d, hd, hlabel, hmult⟩ := of_mem_withContents hc
    rw [hmult, hcs d hd, hlabel]
  -- the cells that the frame brings
  obtain ⟨more, hconcat, hmore, hcodes⟩ : ∃ more : List Cell,
      fs'.foldlM concat { cells := withContents cs contents } =
        pure { cells := withContents cs contents ++ more } ∧
      (∀ c ∈ more, c.multiplicity = multiplicity c.label) ∧
      (more.map cellCode).Perm (rest.map cellCode) := by
    rcases hfs with ⟨rfl, rfl⟩ | ⟨r, parts, rfl, hr, hparts⟩
    · cases hfs'
      exact ⟨[], by rw [List.append_nil]; rfl, List.forall_mem_nil _, .refl _⟩
    · cases hfs' with
      | @cons r' _ _ _ hrr h =>
      cases h
      have halike := Term.alike_of_beq hrr
      rw [hr] at halike
      generalize hr' : r'.node = m at halike
      cases halike with
      | @cells parts' _ _ hcells =>
      refine ⟨parts', ?_, fun c hc => ?_, ?_⟩
      · rw [List.foldlM_cons, concat, hr']
        rfl
      · obtain ⟨d, hd, hlabel, hmult, -⟩ := PairedLists.exists_mem hcells hc
        have hmem : d ∈ ss := hperm.mem_iff.mpr (List.mem_append_right _ (hparts.mem_iff.mp hd))
        rw [hmult, hlabel, hss d hmem]
      · have heq : parts'.map cellCode = parts.map cellCode := by
          refine PairedLists.map_eq (hcells.imp fun c d h => ?_)
          rw [cellCode, cellCode, h.1, Term.beq_iff.mp h.2.2]
        rw [heq]
        exact hparts.map _
  rw [rebuild_eq hn, Term.cellsFrom, hconcat, pure_bind]
  refine always_build hs hnormal (List.forall_mem_append.mpr ⟨hnew, hmore⟩) hss ?_
  rw [List.map_append, withContents_codes hused hcontents]
  refine (hcodes.append_left _).trans ?_
  rw [← List.map_append]
  exact (hperm.map _).symm

end CellParts

end RuleCompiler
