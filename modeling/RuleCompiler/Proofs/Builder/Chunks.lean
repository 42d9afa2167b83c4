import RuleCompiler.Proofs.Builder.Agreement
import RuleCompiler.Proofs.Builder.Sequence

/-! # Builders on chunks

Sequences and lists flatten what they are put together of: a term that was built of some parts contributes
the contents of these parts, in order. So it makes no difference whether parts are added to one builder or,
in consecutive chunks, to builders of their own whose results are added to another one. -/

namespace RuleCompiler

open Build (Always)
open Term (Equal)

/-! ### Flattening -/

namespace Build
variable {α β : Type} {R : β → β → Prop} {make : List α → Build Term} {again : Term → α} {contents : α → List β}
  {IsProper : α → Prop} {whole : List β → Term}

/-- The builder makes the whole of the contents of its parts, one after the other, and what it has made has
these contents when it is a part again. -/
structure Flattens (R : β → β → Prop) (make : List α → Build Term) (again : Term → α) (contents : α → List β)
    (IsProper : α → Prop) (whole : List β → Term) : Prop where
  always_make : ∀ as : List α, (∀ a ∈ as, IsProper a) → Always (make as) (· == whole (as.flatMap contents))
  again : ∀ (as : List α) (t : Term), (∀ a ∈ as, IsProper a) → t == whole (as.flatMap contents) →
    IsProper (again t) ∧ List.Forall₂ R (contents (again t)) (as.flatMap contents)
  whole_congr : ∀ {w w' : List β}, List.Forall₂ R w w' → whole w == whole w'

theorem Flattens.giveEqual_flatten (h : Flattens R make again contents IsProper whole) {chunks : List (List α)}
    (hproper : ∀ as ∈ chunks, ∀ a ∈ as, IsProper a) :
    GiveEqual (do make ((← chunks.mapM make).map again)) (make chunks.flatten) := by
  have hall : ∀ a ∈ chunks.flatten, IsProper a := fun a ha => by
    obtain ⟨as, has, ha⟩ := List.mem_flatten.mp ha
    exact hproper as has a ha
  refine .of_always (Always.bind (Always.mapM fun as has => h.always_make as (hproper as has)) fun ts hts => ?_)
    (h.always_make _ hall)
  have hagain : List.Forall₂ (fun as t => IsProper (again t) ∧ List.Forall₂ R (contents (again t)) (as.flatMap contents))
      chunks ts :=
    PairedLists.imp_mem hts fun as has t _ ht => h.again as t (hproper as has) ht
  have hcontents : List.Forall₂ R ((ts.map again).flatMap contents) (chunks.flatten.flatMap contents) := by
    rw [List.flatMap_map, ← List.flatMap_id', List.flatMap_assoc]
    exact List.rel_flatMap hagain.flip fun _ _ h => h.2
  refine (h.always_make _ (List.forall_mem_map.mpr fun t ht => ?_)).mono fun u hu =>
    BEq.trans hu (h.whole_congr hcontents)
  obtain ⟨as, -, h⟩ := PairedLists.exists_mem hagain.flip ht
  exact h.1

end Build

/-! ### Sequences -/

theorem Term.flattens_sequence : Build.Flattens (fun t u : Term => t == u) sequence id sequenceItems HasProperItems
    sequenceOf where
  always_make _ := always_sequence
  again ts t hts ht := by
    have hplain : ∀ u ∈ ts.flatMap sequenceItems, SequenceParts.isPlain u := fun u hu => by
      obtain ⟨t, ht, hu⟩ := List.mem_flatMap.mp hu
      exact (hts t ht).isPlain_items u hu
    exact ⟨(hasProperItems_sequenceOf hplain).congr ht, (sequenceItems_congr ht).trans (equal_sequenceItems hplain)⟩
  whole_congr := sequenceOf_congr

/-! ### Lists -/

namespace ListParts

/-- One step in putting a list together. -/
inductive Step where
  | item (t : Term)
  | concat (t : Term)

namespace Step

/-- The entries that a step brings to a list of `ops`. -/
def entries (ops : CollectionOps) : Step → List Entry
  | item t => [.item t]
  | concat t => t.entries ops

/-- Whether lists of `ops` are put together by such steps: whatever is an item for them may be added, and
whatever is no list, or a list as builders leave it, may be merged. -/
def IsProper (ops : CollectionOps) : Step → Prop
  | item t => isItem ops t
  | concat t => t.HasEntries ops

theorem IsProper.areFit {ops : CollectionOps} {s : Step} (h : s.IsProper ops) : AreFit ops (s.entries ops) := by
  cases s with
  | item t => exact areFit_of_forall (List.forall_mem_singleton.mpr h)
  | concat t => exact Term.HasEntries.areFit h

end Step

def perform (p : ListParts) : Step → Build ListParts
  | .item t => return p.addItem t
  | .concat t => p.concat t

/-- The list that the steps make. -/
def ofSteps (ops : CollectionOps) (steps : List Step) : Build Term := do (← steps.foldlM perform { ops }).build

variable {ops : CollectionOps} {p q : ListParts}

theorem always_perform {s : Step} (h : p.Alike q) (hs : s.IsProper q.ops) :
    Always (p.perform s) fun r => r.Alike ((s.entries q.ops).foldl push q) := by
  cases s with
  | item t => exact .pure (h.addItem BEq.rfl)
  | concat t => exact always_concat_entries h BEq.rfl hs

theorem always_performAll {steps : List Step} : ∀ {p q : ListParts}, p.Alike q → (∀ s ∈ steps, s.IsProper q.ops) →
    Always (steps.foldlM perform p) fun r => r.Alike ((steps.flatMap (Step.entries q.ops)).foldl push q) := by
  induction steps with
  | nil => exact fun h _ => .pure h
  | cons s steps ih =>
    intro p q h hsteps
    obtain ⟨hs, hsteps⟩ := List.forall_mem_cons.mp hsteps
    rw [List.foldlM_cons, List.flatMap_cons, List.foldl_append]
    refine (always_perform h hs).bind fun r hr => ?_
    have hops := foldl_push_ops (s.entries q.ops) q
    have hrest := ih hr (hops.symm ▸ hsteps)
    rwa [hops] at hrest

theorem flattens_ofSteps (ops : CollectionOps) : Build.Flattens Entry.Alike (ofSteps ops) .concat (Step.entries ops)
    (Step.IsProper ops) (Term.listOfEntries ops) where
  always_make _ hsteps := (always_performAll (.refl { ops }) hsteps).bind fun _ h => always_build_built h
  again steps t hsteps ht := by
    have hfit : AreFit ops (steps.flatMap (Step.entries ops)) := .flatMap fun s hs => (hsteps s hs).areFit
    have hentries : List.Forall₂ Entry.Alike (t.entries ops) _ := Term.entries_congr ht
    rw [Term.entries_listOfEntries hfit] at hentries
    exact ⟨(Term.hasEntries_listOfEntries hfit).congr ht, hentries⟩
  whole_congr := Term.listOfEntries_congr

end ListParts

/-! ### Any chunks -/

/-- However the terms of a sequence, or the steps of a list, are cut into consecutive chunks: the results of
the chunks make the same sequence or list as all of them do. Any term is an item of a list with an element
wrapper, so that every step is proper there that merges no list but one that builders make. -/
theorem Build.giveEqual_chunks (ops : CollectionOps) :
    (∀ chunks : List (List Term), (∀ ts ∈ chunks, ∀ t ∈ ts, t.HasProperItems) →
      GiveEqual (do Term.sequence (← chunks.mapM Term.sequence)) (Term.sequence chunks.flatten)) ∧
    ∀ chunks : List (List ListParts.Step), (∀ steps ∈ chunks, ∀ s ∈ steps, s.IsProper ops) →
      GiveEqual (do ListParts.ofSteps ops ((← chunks.mapM (ListParts.ofSteps ops)).map .concat))
        (ListParts.ofSteps ops chunks.flatten) := by
  refine ⟨fun chunks h => ?_, fun chunks => (ListParts.flattens_ofSteps ops).giveEqual_flatten⟩
  have hsequence := Term.flattens_sequence.giveEqual_flatten h
  simpa only [List.map_id] using hsequence

/-- Chunks with frames that become items, empty chunks and units, runs of items across chunks, and lists of a
user operator. -/
theorem Build.giveEqual_chunks_flattened :
    let rest : Term := ⟨⟨1, false⟩, .var ⟨"Rest", .k, 0⟩⟩
    let items : Term := ⟨⟨2, false⟩, .seq [.int 1, rest, .int 2] (some ⟨"Rest", .k, 0⟩)⟩
    let xs : Term := ⟨⟨3, false⟩, .var ⟨"Xs", .list, 0⟩⟩
    let list : Term := ⟨⟨4, false⟩, .list .list [.int 0] [xs] [.int 5]⟩
    let operator : CollectionOps := ⟨⟨"Exps"⟩, "_,_", ".Exps", none⟩
    let ys : Term := ⟨⟨5, false⟩, .var ⟨"Ys", ⟨"Exps"⟩, 0⟩⟩
    let pair : Term := ⟨⟨6, false⟩, .list operator [.int 1, .int 2] [ys] []⟩
    let chunks : List (List Term) := [[rest], [], [.int 1, rest], [items], [.dotK, .int 3]]
    let steps : List (List ListParts.Step) := [[.concat xs, .item (.int 1)], [.item (.int 2), .concat list], [],
      [.concat CollectionOps.list.unitTerm], [.concat xs]]
    let operands : List (List ListParts.Step) := [[.concat pair], [.concat ys], [.concat operator.unitTerm],
      [.concat (.int 3), .concat pair]]
    GiveEqual (do Term.sequence (← chunks.mapM Term.sequence)) (Term.sequence chunks.flatten) ∧
      GiveEqual (do ListParts.ofSteps .list ((← steps.mapM (ListParts.ofSteps .list)).map .concat))
        (ListParts.ofSteps .list steps.flatten) ∧
      GiveEqual (do ListParts.ofSteps operator ((← operands.mapM (ListParts.ofSteps operator)).map .concat))
        (ListParts.ofSteps operator operands.flatten) := by
  intro rest items xs list operator ys pair chunks steps operands
  have hitems : items.HasProperItems := by
    rintro _ _ ⟨⟩
    decide
  have hlist : list.HasEntries .list := by
    rintro _ _ _ ⟨⟩
    exact ⟨[.item (.int 0), .part xs, .item (.int 5)], ListParts.areFit_of_forall (by decide), .refl _⟩
  have hpair : pair.HasEntries operator := by
    rintro _ _ _ ⟨⟩
    exact ⟨[.item (.int 1), .item (.int 2), .part ys], ListParts.areFit_of_forall (by decide), .refl _⟩
  have hother (ops : CollectionOps) (t : Term) (ht : t.isListOf ops = false) :
      ListParts.Step.IsProper ops (.concat t) := Term.hasEntries_of_not_list ht
  have hplain (t : Term) (ht : SequenceParts.isPlain t) : t.HasProperItems := Term.hasProperItems_of_isPlain ht
  refine ⟨(giveEqual_chunks .list).1 chunks ?_, (giveEqual_chunks .list).2 steps ?_,
    (giveEqual_chunks operator).2 operands ?_⟩
  · simp only [chunks, List.forall_mem_cons, List.not_mem_nil, false_imp_iff, implies_true, and_true, true_and]
    have hempty : Term.dotK.HasProperItems := by
      rintro _ _ ⟨⟩
      rfl
    exact ⟨hplain _ rfl, ⟨hplain _ rfl, hplain _ rfl⟩, hitems, hempty, hplain _ rfl⟩
  · simp only [steps, List.forall_mem_cons, List.not_mem_nil, false_imp_iff, implies_true, and_true, true_and]
    exact ⟨⟨hother _ _ rfl, rfl⟩, ⟨rfl, hlist⟩, hother _ _ rfl, hother _ _ rfl⟩
  · simp only [operands, List.forall_mem_cons, List.not_mem_nil, false_imp_iff, implies_true, and_true]
    exact ⟨hpair, hother _ _ rfl, hother _ _ rfl, hother _ _ rfl, hpair⟩

end RuleCompiler
