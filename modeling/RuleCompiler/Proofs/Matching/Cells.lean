import Mathlib.Data.List.Perm.Basic
import RuleCompiler.Proofs.Matching.Fits
import RuleCompiler.Proofs.Term.Tidy

/-! # Matched cells

Cells that fit are paired off by label, each with a cell of its own; a pattern without frames
leaves none over. -/

namespace RuleCompiler

open Matching
open MonadAttach (CanReturn)

namespace CellParts

/-- Only a lone frame is built into something other than a group of cells. -/
theorem returns_build (p : CellParts) : Returns (fun t =>
    (p.cells = [] ∧ ∃ v, t.node = .var v) ∨
    t.node = .cells (SortedList.sort compareCells p.cells)
      (SortedList.sort compareFrames p.frames)) p.build := by
  unfold build
  split
  · rename_i hcells _
    exact (Term.returns_var _).mono fun _ h => .inl ⟨hcells, _, h⟩
  · exact (Term.returns_new _).mono fun _ h => .inr h

/-- What builds to an empty collection has neither cells nor frames. -/
theorem empty_of_build {p : CellParts} {t : Term} (h : CanReturn p.build t)
    (ht : (∃ ops, t.node = .map ops [] []) ∨ (∃ ops, t.node = .set ops [] []) ∨
      t.node = .cells [] []) : p.cells = [] ∧ p.frames = [] := by
  rcases p.returns_build t h with ⟨-, v, hv⟩ | hcells
  · simp [hv] at ht
  · rw [hcells] at ht
    simp only [reduceCtorEq, exists_false, false_or, Node.cells.injEq] at ht
    have hc : (SortedList.sort compareCells p.cells).Perm p.cells := SortedList.perm_sort p.cells
    have hf : (SortedList.sort compareFrames p.frames).Perm p.frames :=
      SortedList.perm_sort p.frames
    rw [ht.1] at hc
    rw [ht.2] at hf
    exact ⟨hc.nil_eq.symm, hf.nil_eq.symm⟩

end CellParts

namespace Matching

variable {R : Term → Term → Prop} {σ : Substitution}

/-- Cells that fit are paired off, and what is left of the subject is left to the frames. -/
theorem CellsFit.exists_rest {sFrames pFrames : List Var} {cs : List Cell}
    {unused : List (Nat × Cell)} (h : CellsFit R σ sFrames pFrames cs unused)
    (hunused : (unused.map (·.1)).Nodup) :
    ∃ used rest r, unused.Perm (used ++ rest) ∧
      List.Forall₂ (fun c u => u.2.label = c.label ∧ R c.content u.2.content) cs used ∧
      CanReturn (CellParts.build ⟨rest.map (·.2), sFrames⟩) r ∧ RestFits (Bound σ) pFrames r := by
  induction h with
  | @nil unused r hr h => exact ⟨[], unused, r, .refl _, .nil, hr, h⟩
  | @cell c u pending unused hu hl hc h ih =>
    have hkeys : unused.Pairwise fun a b => (a.1 == b.1) = false :=
      (List.pairwise_map.mp hunused).imp beq_false_of_ne
    have hperm := SortedList.perm_cons_filter hkeys hu
    have hfilter : ((unused.filter (·.1 != u.1)).map (·.1)).Nodup :=
      hunused.sublist (List.filter_sublist.map _)
    obtain ⟨used, rest, r, hrest, hused, hr, hend⟩ := ih hfilter
    exact ⟨u :: used, rest, r, hperm.trans (hrest.cons u), .cons ⟨hl, hc⟩ hused, hr, hend⟩

/-- Without frames to take them nothing is left over. -/
theorem empty_of_rest {S : Var → Term → Prop} {cs : List Cell} {sFrames : List Var} {r : Term}
    (hr : CanReturn (CellParts.build ⟨cs, sFrames⟩) r) (h : RestFits S [] r) :
    cs = [] ∧ sFrames = [] := by
  refine CellParts.empty_of_build hr ?_
  cases h with
  | noEntries h => exact .inl ⟨_, h⟩
  | noElements h => exact .inr (.inl ⟨_, h⟩)
  | noCells h => exact .inr (.inr h)

theorem map_fst_mapIdx {α : Type} (l : List α) :
    (l.mapIdx fun i a => (i, a)).map (·.1) = List.range' 0 l.length := by
  rw [List.mapIdx_eq_zipIdx_map, List.map_map]
  exact List.zipIdx_map_snd 0 l

theorem map_snd_mapIdx {α : Type} (l : List α) : (l.mapIdx fun i a => (i, a)).map (·.2) = l := by
  rw [List.mapIdx_eq_zipIdx_map, List.map_map]
  exact List.zipIdx_map_fst 0 l

/-- What the entries are rearranged to, their numbers with them. -/
theorem exists_numbered {α : Type} {l as bs : List α} (h : l.Perm (as ++ bs)) :
    ∃ us ws : List (Nat × α), us.map (·.2) = as ∧ ws.map (·.2) = bs ∧
      (l.mapIdx fun i a => (i, a)).Perm (us ++ ws) := by
  have hnumbers : List.Forall₂ (fun a (u : Nat × α) => a = u.2) l (l.mapIdx fun i a => (i, a)) := by
    rw [← List.forall₂_map_right_iff (f := Prod.snd) (R := (· = ·)), map_snd_mapIdx]
    exact List.forall₂_refl l
  obtain ⟨vs, hvs, hperm⟩ := List.perm_comp_forall₂ h.symm hnumbers
  rw [← List.forall₂_map_right_iff (f := Prod.snd) (R := (· = ·)), List.forall₂_eq_eq_eq] at hvs
  obtain ⟨us, ws, rfl, hus, hws⟩ := List.map_eq_append_iff.mp hvs.symm
  exact ⟨us, ws, hus, hws, hperm.symm⟩

/-- The cells of a pattern against cells of the subject, and the rest against the frames. -/
theorem exists_rest_of_cells {cs cs' : List Cell} {pFrames sFrames : List Var}
    (h : CellsFit R σ sFrames pFrames cs (cs'.mapIdx fun i c => (i, c))) :
    ∃ used rest r, cs'.Perm (used ++ rest) ∧
      List.Forall₂ (fun c u : Cell => u.label = c.label ∧ R c.content u.content) cs used ∧
      CanReturn (CellParts.build ⟨rest, sFrames⟩) r ∧ RestFits (Bound σ) pFrames r := by
  have hnumbers : ((cs'.mapIdx fun i c => (i, c)).map (·.1)).Nodup := by
    rw [map_fst_mapIdx]
    exact List.nodup_range'
  obtain ⟨used, rest, r, hperm, hused, hr, hend⟩ := h.exists_rest hnumbers
  refine ⟨used.map (·.2), rest.map (·.2), r, ?_, ?_, hr, hend⟩
  · have hcells := hperm.map (·.2)
    rwa [List.map_append, map_snd_mapIdx] at hcells
  · rw [List.forall₂_map_right_iff]
    exact hused

/-- Lists of strings in order with the same members are the same. -/
theorem eq_of_perm_sorted {as bs : List String} (h : as.Perm bs)
    (ha : as.Pairwise fun a b => (compare a b).isLE)
    (hb : bs.Pairwise fun a b => (compare a b).isLE) : as = bs := by
  refine h.eq_of_pairwise (fun a b _ _ hab hba => ?_) ha hb
  exact Std.LawfulEqCmp.eq_of_compare (Std.OrientedCmp.isLE_antisymm hab hba)

/-- Without frames the cells of pattern and subject have the same labels. -/
theorem labels_eq_of_cells {cs cs' : List Cell} {sFrames : List Var}
    (h : CellsFit R σ sFrames [] cs (cs'.mapIdx fun i c => (i, c)))
    (hcs : cs.Pairwise fun a b => (compare a.label b.label).isLE)
    (hcs' : cs'.Pairwise fun a b => (compare a.label b.label).isLE) :
    cs.map (·.label) = cs'.map (·.label) ∧ sFrames = [] := by
  obtain ⟨used, rest, r, hperm, hused, hr, hend⟩ := exists_rest_of_cells h
  obtain ⟨rfl, hs⟩ := empty_of_rest hr hend
  have hlabels : cs.map (·.label) = used.map (·.label) := by
    have hmap : List.Forall₂ (· = ·) (cs.map (·.label)) (used.map (·.label)) := by
      rw [List.forall₂_map_left_iff, List.forall₂_map_right_iff]
      exact hused.imp fun _ _ h => h.1.symm
    rwa [List.forall₂_eq_eq_eq] at hmap
  refine ⟨?_, hs⟩
  rw [List.append_nil] at hperm
  refine eq_of_perm_sorted ?_ (List.pairwise_map.mpr hcs) (List.pairwise_map.mpr hcs')
  rw [hlabels]
  exact (hperm.map _).symm

end Matching

end RuleCompiler
