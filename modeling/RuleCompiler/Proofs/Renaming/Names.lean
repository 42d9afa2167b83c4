import Mathlib.Data.List.Pairwise
import RuleCompiler.Automaton.Basic
import RuleCompiler.Pass.RuleByRule
import RuleCompiler.Proofs.Renaming.Rules

/-! # Names with ids of their own

Renaming apart gives each variable of a rule an id that no other one has, and leaves don't-care variables
alone. So no two variables become one, and rules that get ids from different ranges have no variable in
common. -/

namespace RuleCompiler

open Build (From)
open Term (Renamed)

namespace Rule

variable {r r' : Rule} {names : List (Var × Var)} {start stop n : Nat} {v w : Var}

/-- No two variables of the rule become one, sorts stay as they are, and don't-care variables are left alone:
no other variable becomes one. -/
structure IsTrueRenaming (ρ : Var → Var) (r : Rule) : Prop where
  injOn : Set.InjOn ρ {v | v ∈ r.vars}
  sort (v : Var) : (ρ v).sort = v.sort
  dontCare {v : Var} (hv : v.isDontCare) : ρ v = v
  isDontCare {v : Var} (hv : v ∈ r.vars) : (ρ v).isDontCare = v.isDontCare

/-- Every variable of the rule, don't-care variables left out, has an id of the range. -/
def HasIds (start stop : Nat) (r : Rule) : Prop := ∀ v ∈ r.vars, v.isDontCare = false → start ≤ v.id ∧ v.id < stop

/-- Each variable of the rule, don't-care variables left out, has a name with an id of its own, and the ids are
those from `start` on, below `stop`. -/
structure NamesApart (start stop : Nat) (r : Rule) (names : List (Var × Var)) : Prop where
  keys (v : Var) : v ∈ names.map (·.1) ↔ v ∈ r.vars ∧ v.isDontCare = false
  ids : names.Pairwise fun p q => p.2.id ≠ q.2.id
  range : ∀ p ∈ names, start ≤ p.2.id ∧ p.2.id < stop
  sort : ∀ p ∈ names, p.2.sort = p.1.sort
  isDontCare : ∀ p ∈ names, p.2.isDontCare = false

/-- The variable under its name, if it has one. -/
abbrev nameOf (names : List (Var × Var)) : Var → Var := Var.renamed fun v => SortedList.get? v names

theorem nameOf_mem (h : v ∈ names.map (·.1)) : (v, nameOf names v) ∈ names := by
  obtain ⟨p, hp, rfl⟩ := List.mem_map.mp h
  have hsome : (names.find? (·.1 == p.1)).isSome := List.find?_isSome.mpr ⟨p, hp, BEq.refl p.1⟩
  obtain ⟨q, hq⟩ := Option.isSome_iff_exists.mp hsome
  have hkey : q.1 = p.1 := by simpa using List.find?_some hq
  rw [nameOf, Var.renamed, SortedList.get?, hq, Option.map_some, Option.getD_some, ← hkey]
  exact List.mem_of_find?_eq_some hq

theorem nameOf_eq_self (h : v ∉ names.map (·.1)) : nameOf names v = v := by
  have hnone : names.find? (·.1 == v) = none := by
    refine List.find?_eq_none.mpr fun p hp heq => h ?_
    exact List.mem_map.mpr ⟨p, hp, by simpa using heq⟩
  rw [nameOf, Var.renamed, SortedList.get?, hnone]
  rfl

namespace NamesApart

theorem mem (h : NamesApart start stop r names) (hv : v ∈ r.vars) (hd : v.isDontCare = false) :
    (v, nameOf names v) ∈ names := nameOf_mem ((h.keys v).mpr ⟨hv, hd⟩)

theorem dontCare (h : NamesApart start stop r names) (hd : v.isDontCare) : nameOf names v = v :=
  nameOf_eq_self fun hv => by
    have hd' := ((h.keys v).mp hv).2
    rw [hd] at hd'
    cases hd'

theorem eq_of_id (h : NamesApart start stop r names) {p q : Var × Var} (hp : p ∈ names) (hq : q ∈ names)
    (hid : p.2.id = q.2.id) : p = q := by
  have hsymm : Std.Symm fun p q : Var × Var => p.2.id ≠ q.2.id := ⟨fun _ _ hne heq => hne heq.symm⟩
  by_contra hne
  exact h.ids.forall hp hq hne hid

/-- The new names are told apart as the variables were, and more so. -/
theorem eq_or_dontCare (h : NamesApart start stop r names) (hv : v ∈ r.vars) (hw : w ∈ r.vars)
    (hname : (nameOf names v).name = (nameOf names w).name) (hid : (nameOf names v).id = (nameOf names w).id) :
    v = w ∨ (v.isDontCare ∧ w.isDontCare) := by
  have hdc : (nameOf names v).isDontCare = (nameOf names w).isDontCare := by
    rw [Var.isDontCare, Var.isDontCare, hname]
  cases hvd : v.isDontCare with
  | true =>
    rw [h.dontCare hvd, hvd] at hdc
    cases hwd : w.isDontCare with
    | true => exact .inr ⟨rfl, rfl⟩
    | false => cases hdc.trans (h.isDontCare _ (h.mem hw hwd))
  | false =>
    rw [h.isDontCare _ (h.mem hv hvd)] at hdc
    cases hwd : w.isDontCare with
    | true => rw [h.dontCare hwd, hwd] at hdc; cases hdc
    | false => exact .inl (congrArg Prod.fst (h.eq_of_id (h.mem hv hvd) (h.mem hw hwd) hid))

theorem isTrueRenaming (h : NamesApart start stop r names) : r.IsTrueRenaming (nameOf names) where
  injOn v hv w hw heq := by
    rcases h.eq_or_dontCare hv hw (by rw [heq]) (by rw [heq]) with hvw | ⟨hvd, hwd⟩
    · exact hvw
    · rwa [h.dontCare hvd, h.dontCare hwd] at heq
  sort v := by
    by_cases hv : v ∈ names.map (·.1)
    · exact h.sort _ (nameOf_mem hv)
    · rw [nameOf_eq_self hv]
  dontCare := h.dontCare
  isDontCare {v} hv := by
    cases hd : v.isDontCare with
    | true => rw [h.dontCare hd, hd]
    | false => exact h.isDontCare _ (h.mem hv hd)

/-- The variables of the renamed rule have ids of the range. -/
theorem hasIds_of_renames (h : NamesApart start stop r names) (hr : r.Renames (nameOf names) r') :
    r'.HasIds start stop := by
  intro v hv hd
  obtain ⟨w, hw, rfl⟩ := hr.mem_vars_iff.mp hv
  exact h.range _ (h.mem hw (by rwa [h.isTrueRenaming.isDontCare hw] at hd))

/-- A rule renamed apart can be renamed again. -/
theorem isRenamable (h : NamesApart start stop r names) (hr : r.isRenamable)
    (hterms : List.Forall₂ (Renamed (nameOf names)) r.terms r'.terms) : r'.isRenamable := by
  refine List.all_eq_true.mpr fun u hu => ?_
  obtain ⟨t, ht, htu⟩ := PairedLists.exists_mem hterms.flip hu
  refine htu.isRenamable (fun v hv w hw hname hid => ?_) h.isTrueRenaming.sort (List.all_eq_true.mp hr t ht)
  rcases h.eq_or_dontCare (vars_subset ht hv) (vars_subset ht hw) hname hid with rfl | ⟨hvd, hwd⟩
  · exact ⟨rfl, rfl⟩
  · rw [h.dontCare hvd, h.dontCare hwd] at hname hid
    exact ⟨hname, hid⟩

/-- Names apart make of a rule one that can be renamed again, with ids of the range. -/
theorem from_rename (h : NamesApart start stop r names) (hr : r.isRenamable) (hnumbered : r.IsNumbered n) :
    From n (fun k r' => r.Renames (nameOf names) r' ∧ r'.isRenamable ∧ r'.IsNumbered k ∧ r'.HasIds start stop)
      (r.rename names) := by
  intro r' k hrun
  obtain ⟨hk, hrenames, hterms⟩ := Rule.from_rename hr hnumbered h.isTrueRenaming.sort h.isTrueRenaming.injOn r' k hrun
  obtain ⟨-, hnumbered'⟩ := from_rename_numbered names hnumbered r' k hrun
  exact ⟨hk, hrenames, h.isRenamable hr hterms, hnumbered', h.hasIds_of_renames hrenames⟩

/-- Ids that are counted upwards are ids of their own. -/
theorem of_mapIdx (name : Var → Nat → Var) (hid : ∀ v i, (name v i).id = i) (hsort : ∀ v i, (name v i).sort = v.sort)
    (hd : ∀ v i, v.isDontCare = false → (name v i).isDontCare = false) (r : Rule) (start : Nat) {vs : List Var}
    (hvs : ∀ v, v ∈ vs ↔ v ∈ r.vars ∧ v.isDontCare = false) :
    NamesApart start (start + vs.length) r (vs.mapIdx fun i v => (v, name v (start + i))) where
  keys v := by
    have hkeys : (vs.mapIdx fun i v => (v, name v (start + i))).map (·.1) = vs := by
      refine List.ext_getElem (by simp) fun i _ _ => ?_
      simp
    rw [hkeys, hvs]
  ids := by
    rw [List.pairwise_iff_getElem]
    intro i j hi hj hij
    simp only [List.getElem_mapIdx, hid]
    omega
  range p hp := by
    obtain ⟨i, hi, rfl⟩ := List.mem_mapIdx.mp hp
    simp only [hid]
    omega
  sort p hp := by
    obtain ⟨i, hi, rfl⟩ := List.mem_mapIdx.mp hp
    exact hsort _ _
  isDontCare p hp := by
    obtain ⟨i, hi, rfl⟩ := List.mem_mapIdx.mp hp
    exact hd _ _ ((hvs _).mp (List.getElem_mem hi)).2

end NamesApart

theorem mem_named_iff : v ∈ (r.vars.filter (!·.isDontCare)).eraseDups ↔ v ∈ r.vars ∧ v.isDontCare = false := by
  rw [List.mem_eraseDups, List.mem_filter, Bool.not_eq_true']

end Rule

end RuleCompiler
