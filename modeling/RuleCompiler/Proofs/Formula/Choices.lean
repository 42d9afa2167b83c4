import Mathlib.Data.List.Lex
import RuleCompiler.Formula.Choices
import RuleCompiler.Proofs.Returns

/-! # Choices one by one

The odometer shows every combination once: it is read as a loop over the combinations that are ahead. They
are the tuples of positions in lexicographic order. -/

namespace RuleCompiler

open Formula (Equation)

/-! ### Counting on -/

namespace Formula
variable {α : Type}

/-- What a visitor makes of the formula with more equations; nothing where they make it false. -/
def visitWith (f : Formula) (visit : Formula → Build (Option α)) (es : List Equation) : Build (Option α) := do
  match ← f.conjoin? es with
  | none => return none
  | some g => visit g

end Formula

namespace Choices
variable {c : Choices} {f : Formula} {α : Type} {visit : Formula → Build (Option α)}

theorem base_advance {g : Formula} (h : c.advance.base = some g) : c.base = some g := by
  unfold advance at h
  split at h
  · exact h
  · cases h

theorem next_of_none (h : c.base = none) : c.next = pure none := by
  rw [next]
  split
  · rfl
  · rename_i hf
    rw [h] at hf
    cases hf

theorem next_of_some (h : c.base = some f) : c.next = (do
    match ← f.conjoin? (c.wheels.map Choice.equation) with
    | some g => return some (g, c.later h)
    | none => return (← c.advance.next).map fun (g, last) => (g, (c.later h).trans last)) := by
  rw [next]
  split
  · rename_i hf
    rw [h] at hf
    cases hf
  · rename_i hf
    cases h.symm.trans hf
    rfl

theorem each_of_none (h : c.base = none) : c.each visit = pure [] := by
  rw [each, next_of_none h]
  rfl

/-- One turn: the combination that is shown is tried, and then those after it. -/
theorem each_of_some (h : c.base = some f) : c.each visit = (do
    match ← f.visitWith visit (c.wheels.map Choice.equation) with
    | none => c.advance.each visit
    | some a => return a :: (← c.advance.each visit)) := by
  rw [each, next_of_some h, Formula.visitWith, bind_assoc, bind_assoc]
  congr 1
  funext o
  cases o with
  | none =>
    simp only [bind_assoc, pure_bind]
    rw [each]
    congr 1
    funext o
    rcases o with _ | ⟨g, rest⟩ <;> rfl
  | some g =>
    simp only [pure_bind]
    congr 1
    funext o
    cases o <;> rfl

/-- Counting on, every combination that is ahead is tried once. -/
theorem each_eq (h : ∀ g, c.base = some g → g = f) :
    c.each visit = (c.ahead.map (List.map Choice.equation)).filterMapM (f.visitWith visit) := by
  induction hlen : c.ahead.length using Nat.strongRecOn generalizing c with
  | ind n ih =>
    cases hbase : c.base with
    | none =>
      rw [each_of_none hbase, ahead, hbase]
      rfl
    | some g =>
      obtain rfl := h g hbase
      have hrest := ih _ (hlen ▸ (c.later hbase).property) (fun g hg => h g (base_advance hg)) rfl
      rw [each_of_some hbase, ahead_eq hbase, List.map_cons, List.filterMapM_cons, hrest]
      rfl

end Choices

/-! ### The combinations -/

namespace Choice
variable {c : Choice} {cs : List Choice} {is : List Nat}

/-- The positions that the choices can show, the last one varying fastest. -/
def tuples : List Choice → List (List Nat)
  | [] => [[]]
  | c :: cs => (List.range c.candidates.length).flatMap fun i => (tuples cs).map (i :: ·)

/-- The equations that a tuple of positions stands for. -/
def picked (cs : List Choice) (is : List Nat) : List Equation :=
  (cs.zip is).filterMap fun (c, i) => c.candidates[i]?.map (c.target, ·)

theorem mem_tuples : is ∈ tuples cs ↔ List.Forall₂ (fun i c => i < c.candidates.length) is cs := by
  induction cs generalizing is with
  | nil => rw [tuples, List.mem_singleton, List.forall₂_nil_right_iff]
  | cons c cs ih =>
    simp only [tuples, List.mem_flatMap, List.mem_range, List.mem_map, ih, List.forall₂_cons_right_iff]
    constructor
    · rintro ⟨i, hi, js, hjs, rfl⟩
      exact ⟨i, js, hi, hjs, rfl⟩
    · rintro ⟨i, js, hi, hjs, rfl⟩
      exact ⟨i, hi, js, hjs, rfl⟩

theorem pairwise_tuples (cs : List Choice) : (tuples cs).Pairwise (List.Lex (· < ·)) := by
  induction cs with
  | nil => exact List.pairwise_singleton ..
  | cons c cs ih =>
    rw [tuples, List.pairwise_flatMap]
    refine ⟨fun i _ => ?_, List.pairwise_lt_range.imp fun {i j} hij is his js hjs => ?_⟩
    · exact List.pairwise_map.mpr (ih.imp fun h => .cons h)
    · obtain ⟨is, -, rfl⟩ := List.mem_map.mp his
      obtain ⟨js, -, rfl⟩ := List.mem_map.mp hjs
      exact .rel hij

theorem first_of_among? {target : Term} {candidates : List Term} (h : among? target candidates = some c) :
    c.first = c := by
  obtain ⟨_, h⟩ := Option.dite_none_right_eq_some.mp h
  cases h
  rfl

end Choice

theorem Lookup.first_of_choice? {d : Lookup} {c : Choice} (h : d.choice? = some c) : c.first = c := by
  unfold choice? at h
  split at h
  · split at h
    · exact Choice.first_of_among? h
    · cases h
  · split at h
    · exact Choice.first_of_among? h
    · cases h
  · cases h

namespace Formula
variable {f : Formula} {α : Type} {visit : Formula → Build (Option α)}

/-- One candidate for every choice, the last choice varying fastest. -/
def selections (cs : List Choice) : List (List Equation) :=
  (Choice.combinations cs).map (List.map Choice.equation)

theorem selections_cons (c : Choice) (cs : List Choice) :
    selections (c :: cs) = (List.finRange c.candidates.length).flatMap fun i =>
      (selections cs).map ((c.atPosition i).equation :: ·) := by
  rw [selections, Choice.combinations, List.map_flatMap]
  congr 1
  funext i
  rw [selections, List.map_map, List.map_map]
  rfl

/-- The selections are what the tuples of positions stand for, one after the other. -/
theorem selections_eq (cs : List Choice) : selections cs = (Choice.tuples cs).map (Choice.picked cs) := by
  induction cs with
  | nil => rfl
  | cons c cs ih =>
    have hpicked (i : Fin c.candidates.length) (is : List Nat) :
        Choice.picked (c :: cs) (i :: is) = (c.atPosition i).equation :: Choice.picked cs is := by
      have hcandidate : c.candidates[i.val]? = some c.candidates[i] := List.getElem?_eq_getElem i.isLt
      rw [Choice.picked, List.zip_cons_cons]
      exact List.filterMap_cons_some (by dsimp only; rw [hcandidate]; rfl)
    rw [selections_cons, ih, Choice.tuples, ← List.map_coe_finRange_eq_range, List.flatMap_map, List.map_flatMap]
    congr 1
    funext i
    rw [List.map_map, List.map_map]
    exact List.map_congr_left fun is _ => (hpicked i is).symm

theorem mem_selections {cs : List Choice} {es : List Equation} : es ∈ selections cs ↔
    List.Forall₂ (fun c e => e.1 = c.target ∧ e.2 ∈ c.candidates) cs es := by
  induction cs generalizing es with
  | nil =>
    rw [List.forall₂_nil_left_iff]
    exact List.mem_singleton
  | cons c cs ih =>
    simp only [selections_cons, List.mem_flatMap, List.mem_map, ih, List.forall₂_cons_left_iff]
    constructor
    · rintro ⟨i, -, ds, hds, rfl⟩
      exact ⟨_, ds, ⟨rfl, List.getElem_mem i.isLt⟩, hds, rfl⟩
    · rintro ⟨⟨t, u⟩, ds, ⟨rfl, hu⟩, hds, rfl⟩
      obtain ⟨i, hi, rfl⟩ := List.getElem_of_mem hu
      exact ⟨⟨i, hi⟩, List.mem_finRange _, ds, hds, rfl⟩

theorem options_first (f : Formula) : f.options.map Choice.first = f.options := by
  refine (List.map_congr_left fun c hc => ?_).trans (List.map_id _)
  obtain ⟨d, -, hd⟩ := List.mem_filterMap.mp hc
  exact Lookup.first_of_choice? hd

/-- Every selection is tried once, in order. -/
theorem eachChoice_eq (hf : f.isFalse = false) :
    f.eachChoice visit = (selections f.options).filterMapM (f.withoutOptions.visitWith visit) := by
  have hstart : Choices.ofFormula f = { base := some f.withoutOptions, wheels := f.options } := by
    rw [Choices.ofFormula, hf]
    rfl
  have hahead : Choice.onwards f.options = Choice.combinations f.options := by
    rw [← Choice.onwards_first, options_first]
  rw [eachChoice, hstart, Choices.each_eq fun g h => (Option.some.inj h).symm, Choices.ahead]
  dsimp only
  rw [hahead]
  rfl

theorem eachChoice_of_isFalse (hf : f.isFalse) : f.eachChoice visit = pure [] := by
  rw [eachChoice, Choices.ofFormula, if_pos hf]
  exact Choices.each_of_none rfl

theorem choices_eq (hf : f.isFalse = false) :
    f.choices = (selections f.options).filterMapM f.withoutOptions.conjoin? := by
  rw [choices, eachChoice_eq hf]
  congr 1
  funext es
  rw [visitWith]
  refine Eq.trans ?_ (bind_pure _)
  congr 1
  funext o
  cases o <;> rfl

end Formula

end RuleCompiler
