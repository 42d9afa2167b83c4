import RuleCompiler.Proofs.Builder.Elements
import RuleCompiler.Proofs.Builder.Numbers
import RuleCompiler.Proofs.RewriteLifting.Lifted

/-! # Unordered builders in any order

Maps, sets and groups of cells are put together by steps: a part of their own is added, or a term is
merged. What the steps bring does not depend on where they stand, and the built term has its parts in an
order that the parts determine, so the same steps in any order build equal terms.

Of frames the order looks at names and ids only, so frames that differ in nothing but their sorts stay in
the order they came in (`exists_frames_in_order`). -/

namespace RuleCompiler

open Build (Agree Always)
open Term (Equal)

/-! ### Maps -/

namespace MapParts

/-- One step in putting a map together. -/
inductive Step where
  | put (key value : Term)
  | concat (t : Term)

namespace Step

/-- The entries that a step brings to a map of `ops`. -/
def entries (ops : CollectionOps) : Step → List (Term × Term)
  | put key value => [(key, value)]
  | concat t => match t.node with
    | .map ops' es _ => if ops' = ops then es else []
    | _ => []

/-- The parts not known yet that a step brings to a map of `ops`. -/
def base (ops : CollectionOps) : Step → List Term
  | put .. => []
  | concat t => match t.node with
    | .map ops' _ base => if ops' = ops then base else [t]
    | _ => if ops.isUnit t then [] else [t]

end Step

def perform (p : MapParts) : Step → MapParts
  | .put key value => p.put key value
  | .concat t => p.concat t

/-- The map that the steps make. -/
def ofSteps (ops : CollectionOps) (steps : List Step) : Build Term := (steps.foldl perform { ops }).build

variable {ops : CollectionOps} {steps steps' : List Step} {p q : MapParts}

theorem perform_eq (p : MapParts) (s : Step) : p.perform s =
    { p with entries := putAll (s.entries p.ops) p.entries, base := p.base ++ s.base p.ops } := by
  cases s with
  | put key value => simp [perform, Step.entries, Step.base, put, putAll]
  | concat t =>
    simp only [perform, Step.entries, Step.base, concat]
    cases t.node with
    | map ops' es base =>
      by_cases h : ops' = p.ops
      · simp [h, foldl_put]
      · simp [h, putAll]
    | _ => by_cases h : p.ops.isUnit t <;> simp [h, putAll]

theorem foldl_perform (steps : List Step) (p : MapParts) : steps.foldl perform p =
    { p with entries := putAll (steps.flatMap (Step.entries p.ops)) p.entries,
             base := p.base ++ steps.flatMap (Step.base p.ops) } := by
  induction steps generalizing p with
  | nil => simp [putAll]
  | cons s steps ih =>
    rw [List.foldl_cons, ih, perform_eq, List.flatMap_cons, List.flatMap_cons, List.append_assoc]
    simp only [putAll, List.foldl_append]

/-- Equal entries in order and the same unknown parts in any order make equal maps. -/
theorem agree_build_perm (hops : p.ops = q.ops) (he : p.entries.map Term.entryCode = q.entries.map Term.entryCode)
    (hb : p.base.Perm q.base) : Agree (fun t u : Term => t == u) p.build q.build := by
  have hlen : p.entries.length = q.entries.length := by simpa using congrArg List.length he
  have hsame : (q.entries.isEmpty && q.base.length == 1) = (p.entries.isEmpty && p.base.length == 1) := by
    rw [PairedLists.isEmpty_of_length hlen, hb.length_eq]
  cases hmany : p.entries.isEmpty && p.base.length == 1 with
  | true =>
    obtain ⟨hp, hlone⟩ := Bool.and_eq_true_iff.mp hmany
    obtain ⟨t, hpt⟩ := List.length_eq_one_iff.mp (beq_iff_eq.mp hlone)
    have hqt : q.base = [t] := List.singleton_perm.mp (hpt ▸ hb) |>.symm
    have hq : q.entries.isEmpty := by rw [← PairedLists.isEmpty_of_length hlen, hp]
    unfold build
    rw [List.isEmpty_iff.mp hp, List.isEmpty_iff.mp hq, hpt, hqt]
    exact .pure (BEq.refl t)
  | false =>
    rw [build_of_many hmany, build_of_many (hsame.trans hmany), ← hops]
    refine Term.agree_new (.map ?_ (Term.equal_sort (hb.map _)))
    refine PairedLists.of_map_eq (fun e e' h => ?_) he
    rw [Term.entryCode, Term.entryCode, Prod.mk.injEq] at h
    exact ⟨Term.beq_iff.mpr h.1, Term.beq_iff.mpr h.2⟩

/-- Entries with different keys are put to the same places in any order. -/
theorem putAll_perm {es es' : List (Term × Term)} (hperm : es.Perm es') (h : KeysDiffer es) :
    (putAll es []).map Term.entryCode = (putAll es' []).map Term.entryCode := by
  have h' : KeysDiffer es' := .of_perm (hperm.map _).symm h
  refine SortedList.map_eq_of_perm (r := fun a b : List Symbol × List Symbol => Term.cmpCode a.1 b.1 = .lt)
    (fun h h' => (Term.not_lt_lt h h').elim) ?_ (sorted_putAll .nil) (sorted_putAll .nil)
  exact ((perm_putAll (l := []) h).trans (hperm.trans (perm_putAll (l := []) h').symm)).map _

theorem giveEqual_ofSteps (hperm : steps.Perm steps') (h : KeysDiffer (steps.flatMap (Step.entries ops))) :
    Build.GiveEqual (ofSteps ops steps) (ofSteps ops steps') := by
  refine .of_agree (ends_build _) ?_
  rw [ofSteps, ofSteps, foldl_perform, foldl_perform]
  refine agree_build_perm rfl (putAll_perm (hperm.flatMap_right _) h) ?_
  exact hperm.flatMap_right _

end MapParts

/-! ### Sets -/

namespace SetParts

/-- One step in putting a set together. -/
inductive Step where
  | add (t : Term)
  | concat (t : Term)

namespace Step

/-- The elements that a step brings to a set of `ops`. -/
def elements (ops : CollectionOps) : Step → List Term
  | add t => [t]
  | concat t => match t.node with
    | .set ops' es _ => if ops' = ops then es else []
    | _ => []

/-- The parts not known yet that a step brings to a set of `ops`. -/
def base (ops : CollectionOps) : Step → List Term
  | add _ => []
  | concat t => match t.node with
    | .set ops' _ base => if ops' = ops then base else [t]
    | _ => if ops.isUnit t then [] else [t]

end Step

def perform (p : SetParts) : Step → SetParts
  | .add t => p.add t
  | .concat t => p.concat t

/-- The set that the steps make. -/
def ofSteps (ops : CollectionOps) (steps : List Step) : Build Term := (steps.foldl perform { ops }).build

variable {ops : CollectionOps} {steps steps' : List Step} {p q : SetParts}

theorem perform_eq (p : SetParts) (s : Step) : p.perform s =
    { p with elements := addAll (s.elements p.ops) p.elements, base := p.base ++ s.base p.ops } := by
  cases s with
  | add t => simp [perform, Step.elements, Step.base, add, addAll]
  | concat t =>
    simp only [perform, Step.elements, Step.base, concat]
    cases t.node with
    | set ops' es base =>
      by_cases h : ops' = p.ops
      · simp [h, foldl_add]
      · simp [h, addAll]
    | _ => by_cases h : p.ops.isUnit t <;> simp [h, addAll]

theorem foldl_perform (steps : List Step) (p : SetParts) : steps.foldl perform p =
    { p with elements := addAll (steps.flatMap (Step.elements p.ops)) p.elements,
             base := p.base ++ steps.flatMap (Step.base p.ops) } := by
  induction steps generalizing p with
  | nil => simp [addAll]
  | cons s steps ih =>
    rw [List.foldl_cons, ih, perform_eq, List.flatMap_cons, List.flatMap_cons, List.append_assoc]
    simp only [addAll, List.foldl_append]

/-- Equal elements in order and the same unknown parts in any order make equal sets. -/
theorem agree_build_perm (hops : p.ops = q.ops) (he : Equal p.elements q.elements) (hb : p.base.Perm q.base) :
    Agree (fun t u : Term => t == u) p.build q.build := by
  have hsame : (q.elements.isEmpty && q.base.length == 1) = (p.elements.isEmpty && p.base.length == 1) := by
    rw [PairedLists.isEmpty_eq he, hb.length_eq]
  cases hmany : p.elements.isEmpty && p.base.length == 1 with
  | true =>
    obtain ⟨hp, hlone⟩ := Bool.and_eq_true_iff.mp hmany
    obtain ⟨t, hpt⟩ := List.length_eq_one_iff.mp (beq_iff_eq.mp hlone)
    have hqt : q.base = [t] := List.singleton_perm.mp (hpt ▸ hb) |>.symm
    have hq : q.elements.isEmpty := by rw [← PairedLists.isEmpty_eq he, hp]
    unfold build
    rw [List.isEmpty_iff.mp hp, List.isEmpty_iff.mp hq, hpt, hqt]
    exact .pure (BEq.refl t)
  | false =>
    rw [build_of_many hmany, build_of_many (hsame.trans hmany), ← hops]
    exact Term.agree_new (.set he (Term.equal_sort (hb.map _)))

theorem giveEqual_ofSteps (hperm : steps.Perm steps') : Build.GiveEqual (ofSteps ops steps) (ofSteps ops steps') := by
  refine .of_agree (ends_build _) ?_
  rw [ofSteps, ofSteps, foldl_perform, foldl_perform]
  have helements := (hperm.flatMap_right (Step.elements ops)).map Term.code
  exact agree_build_perm rfl (equal_addAll fun _ => helements.mem_iff) (hperm.flatMap_right _)

end SetParts

/-! ### Cells -/

namespace CellParts

/-- One step in putting a group of cells together. -/
inductive Step where
  | put (c : Cell)
  | concat (t : Term)

namespace Step

/-- The cells that a step brings. -/
def cells : Step → List Cell
  | put c => [c]
  | concat t => match t.node with
    | .cells cs _ => cs
    | _ => []

/-- The frames that a step brings. -/
def frames : Step → List Var
  | put _ => []
  | concat t => match t.node with
    | .cells _ frames => frames
    | .var v => [v]
    | _ => []

/-- Whether the step ends well: only cells and variables can be merged. -/
def isDefined : Step → Bool
  | put _ => true
  | concat t => t.isJoinable

end Step

def perform (p : CellParts) : Step → Build CellParts
  | .put c => return p.put c.label c.multiplicity c.content
  | .concat t => p.concat t

/-- The group of cells that the steps make. -/
def ofSteps (steps : List Step) : Build Term := do (← steps.foldlM perform {}).build

variable {multiplicity : String → Multiplicity} {steps steps' : List Step} {p q : CellParts}

theorem perform_eq (p : CellParts) {s : Step} (hs : s.isDefined) :
    p.perform s = pure { cells := p.cells ++ s.cells, frames := p.frames ++ s.frames } := by
  cases s with
  | put c => simp [perform, Step.cells, Step.frames, put]
  | concat t =>
    simp only [perform, Step.cells, Step.frames, concat, Step.isDefined, Term.isJoinable] at hs ⊢
    cases hn : t.node <;> simp_all

theorem foldlM_perform {steps : List Step} (h : ∀ s ∈ steps, s.isDefined) (p : CellParts) : steps.foldlM perform p =
    pure { cells := p.cells ++ steps.flatMap Step.cells, frames := p.frames ++ steps.flatMap Step.frames } := by
  induction steps generalizing p with
  | nil => simp
  | cons s steps ih =>
    obtain ⟨hs, hsteps⟩ := List.forall_mem_cons.mp h
    rw [List.foldlM_cons, perform_eq p hs, pure_bind, ih hsteps]
    simp only [List.flatMap_cons, List.append_assoc]

/-- Frames are put in one order if their names and ids tell them apart. -/
theorem sort_frames_perm {vs ws : List Var} (h : vs.Perm ws)
    (hsorts : ∀ v ∈ vs, ∀ w ∈ vs, v.name = w.name → v.id = w.id → v.sort = w.sort) :
    SortedList.sort compareFrames vs = SortedList.sort compareFrames ws := by
  have hantisymm : ∀ v w, v ∈ SortedList.sort compareFrames vs → w ∈ SortedList.sort compareFrames ws →
      (compareFrames v w).isLE → (compareFrames w v).isLE → v = w := by
    intro v w hv hw hvw hwv
    have heq : compareFrames v w = .eq := Std.OrientedCmp.isLE_antisymm hvw hwv
    rw [compareFrames, Ordering.then_eq_eq] at heq
    have hname := Std.LawfulEqCmp.eq_of_compare heq.1
    have hid := Std.LawfulEqCmp.eq_of_compare heq.2
    have hsort := hsorts v (SortedList.mem_sort.mp hv) w (h.mem_iff.mpr (SortedList.mem_sort.mp hw)) hname hid
    cases v
    cases w
    simp_all
  exact ((SortedList.perm_sort vs).trans (h.trans (SortedList.perm_sort ws).symm)).eq_of_pairwise hantisymm
    (SortedList.sorted_sort vs) (SortedList.sorted_sort ws)

/-- Frames without cells stand for themselves, or they are a group. -/
theorem agree_frames {vs ws : List Var} (h : vs.Perm ws)
    (hsort : SortedList.sort compareFrames vs = SortedList.sort compareFrames ws) :
    Agree (fun t u : Term => t == u) (build ⟨[], vs⟩) (build ⟨[], ws⟩) := by
  by_cases hone : ∃ v, vs = [v]
  · obtain ⟨v, rfl⟩ := hone
    rw [← List.singleton_perm.mp h]
    exact Term.agree_var v
  · have hone' : ¬∃ w, ws = [w] := by rwa [← List.length_eq_one_iff, ← h.length_eq, List.length_eq_one_iff]
    have hbuild {vs : List Var} (hone : ¬∃ v, vs = [v]) :
        build ⟨[], vs⟩ = Term.new (.cells [] (SortedList.sort compareFrames vs)) := by
      unfold build
      split
      · exact absurd ⟨_, ‹_›⟩ hone
      · rfl
    rw [hbuild hone, hbuild hone', hsort]
    exact Term.agree_new (.cells .nil)

theorem giveEqual_ofSteps (hperm : steps.Perm steps') (hdefined : ∀ s ∈ steps, s.isDefined)
    (hcells : ∀ c ∈ steps.flatMap Step.cells, c.multiplicity = multiplicity c.label)
    (hsorts : ∀ v ∈ steps.flatMap Step.frames, ∀ w ∈ steps.flatMap Step.frames,
      v.name = w.name → v.id = w.id → v.sort = w.sort) :
    Build.GiveEqual (ofSteps steps) (ofSteps steps') := by
  have hcs := hperm.flatMap_right Step.cells
  have hfs := hperm.flatMap_right Step.frames
  have hsorted := sort_frames_perm hfs hsorts
  rw [ofSteps, ofSteps, foldlM_perform hdefined, foldlM_perform fun s hs => hdefined s (hperm.mem_iff.mpr hs),
    pure_bind, pure_bind]
  simp only [List.nil_append]
  refine .of_agree (ends_build _) ?_
  by_cases hne : steps.flatMap Step.cells = []
  · have hne' : steps'.flatMap Step.cells = [] := List.perm_nil.mp (hne ▸ hcs.symm)
    rw [hne, hne']
    exact agree_frames hfs hsorted
  · exact agree_build_perm hcells (fun c hc => hcells c (hcs.mem_iff.mpr hc)) (hcs.map _) hsorted hne

end CellParts

/-! ### Any order -/

end RuleCompiler
