import RuleCompiler.Proofs.Builder.Has
import RuleCompiler.Proofs.Composition.Instances

/-! # Collections made again

A collection is made again from its children and frames, each of which is put in as an item or as a part. A
run of items between unknown parts of a list is a child, but none of the entries: it brings its items. -/

namespace RuleCompiler

open Build (Always)
open Making (Makes)
open Term (Equal)
open World (HasAll)

namespace Collection
variable {k : Collection} {t u : Term} {w : List Entry} {cs fs : List Term}

/-- What the children and frames of the collection are put in as. -/
def steps (t : Term) (cs fs : List Term) : List Entry :=
  match t.node with
  | .seq .. => (cs ++ fs).map .item
  | .list _ left base _ =>
    let rest := cs.drop left.length
    (cs.take left.length).map .item ++ ((rest.take base.length).map .part ++ (rest.drop base.length).map .item)
  | .set _ elements _ => (cs.take elements.length).map .item ++ (cs.drop elements.length).map .part
  | _ => []

/-- What its own children and frames are put in as. -/
def ownSteps (t : Term) : List Entry := steps t t.children t.frameTerms

/-- Steps of one kind. -/
theorem forall₂_steps {R : Term → Term → Prop} {ds gs : List Term} (hc : List.Forall₂ R cs ds)
    (hf : List.Forall₂ R fs gs) :
    List.Forall₂ (fun e e' => ∃ u, R e.term u ∧ e' = e.map fun _ => u) (steps t cs fs) (steps t ds gs) := by
  have hitem {as bs : List Term} (h : List.Forall₂ R as bs) :
      List.Forall₂ (fun e e' => ∃ u, R e.term u ∧ e' = e.map fun _ => u) (as.map Entry.item) (bs.map Entry.item) :=
    List.forall₂_map_left_iff.mpr (List.forall₂_map_right_iff.mpr (h.imp fun _ u h => ⟨u, h, rfl⟩))
  have hpart {as bs : List Term} (h : List.Forall₂ R as bs) :
      List.Forall₂ (fun e e' => ∃ u, R e.term u ∧ e' = e.map fun _ => u) (as.map Entry.part) (bs.map Entry.part) :=
    List.forall₂_map_left_iff.mpr (List.forall₂_map_right_iff.mpr (h.imp fun _ u h => ⟨u, h, rfl⟩))
  unfold steps
  split
  · exact hitem (List.rel_append hc hf)
  · exact List.rel_append (hitem (List.forall₂_take _ hc)) (List.rel_append
      (hpart (List.forall₂_take _ (List.forall₂_drop _ hc))) (hitem (List.forall₂_drop _ (List.forall₂_drop _ hc))))
  · exact List.rel_append (hitem (List.forall₂_take _ hc)) (hpart (List.forall₂_drop _ hc))
  · exact .nil

theorem mem_steps {e : Entry} (he : e ∈ steps t cs fs) : e.term ∈ cs ++ fs := by
  unfold steps at he
  split at he
  · obtain ⟨c, hc, rfl⟩ := List.mem_map.mp he
    exact hc
  · simp only [List.mem_append, List.mem_map] at he
    rcases he with ⟨c, hc, rfl⟩ | ⟨c, hc, rfl⟩ | ⟨c, hc, rfl⟩
    · exact List.mem_append_left _ (List.mem_of_mem_take hc)
    · exact List.mem_append_left _ (List.mem_of_mem_drop (List.mem_of_mem_take hc))
    · exact List.mem_append_left _ (List.mem_of_mem_drop (List.mem_of_mem_drop hc))
  · simp only [List.mem_append, List.mem_map] at he
    rcases he with ⟨c, hc, rfl⟩ | ⟨c, hc, rfl⟩
    · exact List.mem_append_left _ (List.mem_of_mem_take hc)
    · exact List.mem_append_left _ (List.mem_of_mem_drop hc)
  · cases he

/-! ### Proper contents -/

/-- Whether the term, if it is such a collection, has contents as builders leave them. -/
def HasContents : Collection → Term → Prop
  | sequence, t => t.HasProperItems
  | list ops, t => t.HasEntries ops
  | set _, _ => True

theorem HasContents.congr (h : t == u) (hu : k.HasContents u) : k.HasContents t := by
  cases k with
  | sequence => exact Term.HasProperItems.congr h hu
  | list ops => exact Term.HasEntries.congr h hu
  | set ops => trivial

theorem hasContents_of_ne (h : of? t ≠ some k) : k.HasContents t := by
  cases k with
  | sequence =>
    rw [ne_eq, of?_eq_sequence, Bool.not_eq_false] at h
    exact Term.hasProperItems_of_isPlain h
  | list ops =>
    rw [ne_eq, of?_eq_list, Bool.not_eq_true] at h
    exact Term.hasEntries_of_not_list h
  | set ops => trivial

theorem hasContents_whole (h : ∀ e ∈ w, k.keeps e) : k.HasContents (k.whole w) := by
  cases k with
  | list ops => exact Term.hasEntries_listOfEntries (ListParts.areFit_of_forall h)
  | set ops => trivial
  | sequence =>
    refine Term.hasProperItems_sequenceOf (List.forall_mem_map.mpr ?_)
    rintro (t | t) ht
    · exact h _ ht
    · cases h _ ht

theorem hasContents_of_isBuilt {C : String → SortName → Prop} (h : t.IsBuilt C) (k : Collection) :
    k.HasContents t := by
  by_cases hk : of? t = some k
  · obtain ⟨-, hwhole, hkeeps, -⟩ := h.of_collection hk
    exact (hasContents_whole hkeeps).congr hwhole
  · exact hasContents_of_ne hk

/-! ### Builders -/

/-- An entry as a step in putting a list together. -/
def listStep (ops : CollectionOps) : Entry → ListParts.Step
  | .item t => if ops.isOperator then .concat t else .item t
  | .part t => .concat t

/-- An entry as a step in putting a set together. -/
def setStep : Entry → SetParts.Step
  | .item t => .add t
  | .part t => .concat t

theorem entries_listStep (ops : CollectionOps) (e : Entry) : (listStep ops e).entries ops = (list ops).brings e := by
  cases e with
  | part t => rfl
  | item t => cases hop : ops.isOperator <;> simp [listStep, brings, isWrapped, hop, ListParts.Step.entries, contents]

theorem isProper_listStep {ops : CollectionOps} {e : Entry} (h : (list ops).HasContents e.term) :
    (listStep ops e).IsProper ops := by
  cases e with
  | part t => exact h
  | item t =>
    cases hop : ops.isOperator with
    | true =>
      rw [listStep, if_pos hop]
      exact h
    | false => simp [listStep, hop, ListParts.Step.IsProper, ListParts.isItem]

theorem entries_setStep (ops : CollectionOps) (e : Entry) :
    Entry.items ((set ops).brings e) = (setStep e).elements ops ∧
      Entry.parts ((set ops).brings e) = (setStep e).base ops := by
  cases e with
  | item t => exact ⟨rfl, rfl⟩
  | part t =>
    simp only [brings, contents, setStep, SetParts.Step.elements, SetParts.Step.base, Term.setEntries]
    cases t.node with
    | set ops' es base => by_cases h : ops' = ops <;> simp [h, Entry.items, Entry.parts]
    | _ => by_cases h : ops.isUnit t <;> simp [h, Entry.items, Entry.parts]

theorem perform_listStep (ops : CollectionOps) (p : ListParts) (c : Term) :
    p.perform (listStep ops (.item c)) = ListParts.addPart ops p c := by
  cases hop : ops.isOperator <;> simp [ListParts.addPart, listStep, ListParts.perform, hop]

/-- A list is made again step by step. -/
theorem rebuild_list {ops : CollectionOps} (h : t.isListOf ops) (hlen : cs.length = t.children.length) :
    t.rebuild cs fs = ListParts.ofSteps ops ((steps t cs fs).map (listStep ops)) := by
  obtain ⟨left, base, right, hn⟩ := Term.node_of_isListOf h
  rw [Term.children, hn] at hlen
  simp only [Node.children, List.length_append] at hlen
  have hsplit : cs = cs.take left.length ++ ((cs.drop left.length).take base.length ++
      (cs.drop left.length).drop base.length) := by
    rw [List.take_append_drop, List.take_append_drop]
  have hsteps : steps t cs fs = (cs.take left.length).map .item ++ (((cs.drop left.length).take base.length).map .part ++
      ((cs.drop left.length).drop base.length).map .item) := by
    rw [steps, hn]
  rw [hsteps]
  conv_lhs => rw [hsplit]
  rw [ListParts.rebuild_eq hn (by simp; omega) (by simp; omega), ListParts.ofSteps]
  simp only [List.map_append, List.map_map, List.foldlM_append, List.foldlM_map, bind_assoc]
  simp only [Function.comp_def, perform_listStep]
  rfl

/-- A set is made again step by step. -/
theorem rebuild_set {ops : CollectionOps} (h : t.isSetOf ops) (hlen : cs.length = t.children.length) :
    t.rebuild cs fs = SetParts.ofSteps ops ((steps t cs fs).map setStep) := by
  obtain ⟨es, base, hn⟩ := Term.node_of_isSetOf h
  rw [Term.children, hn] at hlen
  simp only [Node.children, List.length_append] at hlen
  have hsteps : steps t cs fs = (cs.take es.length).map .item ++ (cs.drop es.length).map .part := by rw [steps, hn]
  rw [hsteps]
  conv_lhs => rw [← List.take_append_drop es.length cs]
  rw [SetParts.rebuild_eq hn (by simp; omega), SetParts.ofSteps]
  simp only [List.map_append, List.map_map, List.foldl_append, List.foldl_map]
  have hadd : (cs.take es.length).foldl (fun p c => SetParts.perform p ((setStep ∘ Entry.item) c)) { ops } =
      { ops, elements := SetParts.addAll (cs.take es.length) [] } := SetParts.foldl_add _ _
  rw [hadd]
  rfl

/-- A collection is made again as the collection of what its steps bring. -/
theorem always_rebuild (hk : of? t = some k) (hlen : cs.length = t.children.length)
    (h : ∀ e ∈ steps t cs fs, k.HasContents e.term) :
    Always (t.rebuild cs fs) (· == k.whole ((steps t cs fs).flatMap k.brings)) := by
  cases k with
  | sequence =>
    obtain ⟨items, frame, hn⟩ := SequenceParts.node_of_not_isPlain (of?_eq_sequence.mp hk)
    have hsteps : steps t cs fs = (cs ++ fs).map .item := by rw [steps, hn]
    rw [hsteps] at h ⊢
    have hbrings : (((cs ++ fs).map Entry.item).flatMap sequence.brings).map Entry.term =
        (cs ++ fs).flatMap Term.sequenceItems := by
      simp [List.flatMap_map, List.map_flatMap, brings, isWrapped, contents, Function.comp_def, Entry.term]
    rw [Term.rebuild_seq hn, whole, hbrings]
    exact Term.always_sequence fun c hc => h (.item c) (List.mem_map_of_mem hc)
  | list ops =>
    have hbrings : ((steps t cs fs).map (listStep ops)).flatMap (ListParts.Step.entries ops) =
        (steps t cs fs).flatMap (list ops).brings := by
      rw [List.flatMap_map]
      exact List.flatMap_congr fun e _ => entries_listStep ops e
    rw [rebuild_list (of?_eq_list.mp hk) hlen, whole, ← hbrings]
    exact (ListParts.flattens_ofSteps ops).always_make _ (List.forall_mem_map.mpr fun e he => isProper_listStep (h e he))
  | set ops =>
    have hitems : ((steps t cs fs).map setStep).flatMap (SetParts.Step.elements ops) =
        Entry.items ((steps t cs fs).flatMap (set ops).brings) := by
      rw [List.flatMap_map, Entry.items, List.filterMap_flatMap]
      exact List.flatMap_congr fun e _ => (entries_setStep ops e).1.symm
    have hparts : ((steps t cs fs).map setStep).flatMap (SetParts.Step.base ops) =
        Entry.parts ((steps t cs fs).flatMap (set ops).brings) := by
      rw [List.flatMap_map, Entry.parts, List.filterMap_flatMap]
      exact List.flatMap_congr fun e _ => (entries_setStep ops e).2.symm
    rw [rebuild_set (of?_eq_set.mp hk) hlen, SetParts.ofSteps, SetParts.foldl_perform, hitems, hparts, List.nil_append]
    exact SetParts.always_build_whole _

theorem makes_rebuild {w : World} (hk : of? t = some k) (hlen : cs.length = t.children.length) (hcs : w.HasAll cs)
    (hfs : w.HasAll fs) : Makes w (t.rebuild cs fs) World.Has := by
  have hsteps : ∀ e ∈ steps t cs fs, w.Has e.term := fun e he => hcs.append hfs e.term (mem_steps he)
  cases k with
  | sequence =>
    obtain ⟨items, frame, hn⟩ := SequenceParts.node_of_not_isPlain (of?_eq_sequence.mp hk)
    rw [Term.rebuild_seq hn]
    exact Term.makes_sequence (hcs.append hfs)
  | list ops =>
    rw [rebuild_list (of?_eq_list.mp hk) hlen]
    refine Making.bind (P := fun w p => p.Holds w.Has) ?_ fun _ _ _ hp => ListParts.makes_build hp
    rw [List.foldlM_map]
    refine Making.foldlM (ListParts.holds_empty _ ops) fun w' p hw hp e he => ?_
    have he := (hsteps e he).mono hw
    cases e with
    | part c => exact ListParts.makes_concat hp he
    | item c =>
      rw [perform_listStep]
      unfold ListParts.addPart
      split
      · exact ListParts.makes_concat hp he
      · exact Making.pure (ListParts.holds_addItem hp he)
  | set ops =>
    rw [rebuild_set (of?_eq_set.mp hk) hlen]
    refine SetParts.makes_build ?_
    rw [List.foldl_map]
    refine List.foldlRecOn (motive := fun p : SetParts => p.Holds w.Has) _ _ (SetParts.holds_empty _ ops) fun p hp e he => ?_
    have he := hsteps e he
    cases e with
    | item c => exact SetParts.holds_add hp he
    | part c => exact SetParts.has_concat hp he

/-! ### Own steps -/

theorem ownSteps_of_seq {items : List Term} {frame : Option Var} (hn : t.node = .seq items frame) :
    ownSteps t = t.sequenceItems.map .item := by
  rw [ownSteps, steps, hn, Term.sequenceItems, hn, Term.children, hn, Term.frameTerms, Term.frames, hn]
  rfl

theorem ownSteps_of_list {ops : CollectionOps} {left base right : List Term} (hn : t.node = .list ops left base right) :
    ownSteps t = left.map .item ++ (base.map .part ++ right.map .item) := by
  rw [ownSteps, steps, hn, Term.children, hn]
  simp [Node.children]

theorem ownSteps_of_set {ops : CollectionOps} {es base : List Term} (hn : t.node = .set ops es base) :
    ownSteps t = es.map .item ++ base.map .part := by
  rw [ownSteps, steps, hn, Term.children, hn]
  simp [Node.children]

/-- Every child is put in. -/
theorem exists_ownStep {c : Term} (hk : of? t = some k) (hc : c ∈ t.children) : ∃ e ∈ ownSteps t, e.term = c := by
  cases k with
  | sequence =>
    obtain ⟨items, frame, hn⟩ := SequenceParts.node_of_not_isPlain (of?_eq_sequence.mp hk)
    rw [Term.children, hn] at hc
    rw [ownSteps_of_seq hn, Term.sequenceItems, hn]
    have hc : c ∈ items := hc
    exact ⟨.item c, by simp [hc], rfl⟩
  | list ops =>
    obtain ⟨left, base, right, hn⟩ := Term.node_of_isListOf (of?_eq_list.mp hk)
    rw [Term.children, hn] at hc
    rw [ownSteps_of_list hn]
    rcases List.mem_append.mp hc with hc | hc
    · exact ⟨.item c, by simp [hc], rfl⟩
    · rcases List.mem_append.mp hc with hc | hc
      · exact ⟨.part c, by simp [hc], rfl⟩
      · exact ⟨.item c, by simp [hc], rfl⟩
  | set ops =>
    obtain ⟨es, base, hn⟩ := Term.node_of_isSetOf (of?_eq_set.mp hk)
    rw [Term.children, hn] at hc
    rw [ownSteps_of_set hn]
    rcases List.mem_append.mp hc with hc | hc
    · exact ⟨.item c, by simp [hc], rfl⟩
    · exact ⟨.part c, by simp [hc], rfl⟩

/-- What a collection keeps brings itself. -/
theorem brings_of_keeps {e : Entry} (h : k.keeps e) : k.brings e = [e] := by
  cases k with
  | sequence =>
    cases e with
    | item t => simp [brings, isWrapped, contents, SequenceParts.sequenceItems_of_isPlain h]
    | part t => cases h
  | list ops =>
    cases hop : ops.isOperator with
    | true =>
      have hentries : e.term.entries ops = [e] := (Term.entries_term h (.inl hop)).2
      cases e <;> simpa [brings, isWrapped, hop, contents, Entry.term] using hentries
    | false =>
      cases e with
      | item t => simp [brings, isWrapped, hop]
      | part t => exact (Term.entries_term (e := .part t) h (.inr ⟨t, rfl⟩)).2
  | set ops =>
    cases e with
    | item t => rfl
    | part t =>
      simp only [keeps, SetParts.isPart, Bool.and_eq_true, Bool.not_eq_true'] at h
      simp [brings, contents, Term.setEntries_of_not_set h.1, h.2]

theorem flatMap_brings_of_keeps (h : ∀ e ∈ w, k.keeps e) : w.flatMap k.brings = w := by
  rw [List.flatMap_congr fun e he => brings_of_keeps (h e he), List.flatMap_singleton']

end Collection

/-! ### Runs of items -/

namespace ListParts
variable {ops : CollectionOps} {w : List Entry}

/-- Between unknown parts of a list stand runs of items. -/
theorem isPart_or_isRun (h : ∀ e ∈ w, e.isKept ops) : ∀ b ∈ (ofEntries ops w).base, isPart ops b ∨ isRun ops b := by
  induction w using List.reverseRecOn with
  | nil => exact List.forall_mem_nil _
  | append_singleton w e ih =>
    rw [List.forall_mem_append, List.forall_mem_singleton] at h
    have hbase := ih h.1
    rw [ofEntries_concat]
    cases e with
    | item t =>
      intro b hb
      simp only [push, addItem] at hb
      split at hb <;> exact hbase b hb
    | part t =>
      have hrun : ∀ b ∈ closed (ofEntries ops w).ops (ofEntries ops w).right, isRun ops b := by
        intro b hb
        unfold closed at hb
        rw [ofEntries_ops] at hb
        split at hb
        · cases hb
        · rename_i hright
          obtain ⟨c, cs, hc⟩ := List.exists_cons_of_ne_nil (mt List.isEmpty_iff.mpr hright)
          rw [List.mem_singleton.mp hb, isRun, hc]
          exact decide_eq_true rfl
      intro b hb
      simp only [push, List.mem_append, List.mem_singleton] at hb
      rcases hb with (hb | hb) | rfl
      · exact hbase b hb
      · exact .inr (hrun b hb)
      · exact .inl ((Bool.and_eq_true _ _).mp h.2).1

theorem ofEntries_items (ops : CollectionOps) (ts : List Term) : ofEntries ops (ts.map .item) = { ops, left := ts } := by
  rw [ofEntries, List.foldl_map]
  exact foldl_addItem rfl

end ListParts

namespace Term
variable {ops : CollectionOps} {t : Term} {left base right : List Term}

theorem HasEntries.isPart_or_isRun (h : t.HasEntries ops) (hn : t.node = .list ops left base right) :
    ∀ b ∈ base, ListParts.isPart ops b ∨ ListParts.isRun ops b := by
  obtain ⟨w, hw, hparts⟩ := h left base right hn
  intro b hb
  obtain ⟨c, hc, hbc⟩ := PairedLists.exists_mem hparts.base hb
  rw [ListParts.isPart_congr hbc, ListParts.isRun_congr hbc]
  exact ListParts.isPart_or_isRun hw.kept c hc

/-- A run has its items for entries. -/
theorem hasEntries_of_run {items : List Term} (hn : t.node = .list ops items [] [])
    (h : ∀ c ∈ items, ListParts.isItem ops c) : t.HasEntries ops := by
  intro left base right hn'
  cases hn.symm.trans hn'
  refine ⟨items.map .item, ListParts.areFit_of_forall (List.forall_mem_map.mpr h), ?_⟩
  rw [ListParts.ofEntries_items]
  exact .refl _

end Term

namespace Collection
variable {k : Collection} {t : Term}

theorem contents_of_run {ops : CollectionOps} {items : List Term} (hn : t.node = .list ops items [] []) :
    (list ops).contents t = items.map .item := by
  rw [contents, Term.entries_of_list hn]
  simp [ListParts.entries]

theorem partEntries_of_run {ops : CollectionOps} {items : List Term} (hn : t.node = .list ops items [] []) :
    ListParts.partEntries ops t = items.map .item := by
  have hlist : t.isListOf ops := by
    rw [Term.isListOf, hn]
    exact decide_eq_true rfl
  rw [ListParts.partEntries, if_pos hlist, Term.itemsOf_of_list hn]

/-- Whether the collection is known by its contents, which its own children and frames bring. -/
structure IsLaid (k : Collection) (t : Term) : Prop where
  kind : of? t = some k
  hasContents : k.HasContents t
  same : k.Same (k.contents t) ((ownSteps t).flatMap k.brings)

theorem isLaid (hk : of? t = some k) (h : k.HasContents t) (hkeeps : ∀ e ∈ k.contents t, k.keeps e) : k.IsLaid t := by
  refine ⟨hk, h, ?_⟩
  have hself := flatMap_brings_of_keeps hkeeps
  cases k with
  | sequence =>
    obtain ⟨items, frame, hn⟩ := SequenceParts.node_of_not_isPlain (of?_eq_sequence.mp hk)
    rw [ownSteps_of_seq hn]
    exact .of_alike (hself.symm ▸ Same.refl sequence _)
  | set ops =>
    obtain ⟨es, base, hn⟩ := Term.node_of_isSetOf (of?_eq_set.mp hk)
    rw [ownSteps_of_set hn, ← Term.setEntries_of_set hn]
    exact hself.symm ▸ Same.refl (set ops) _
  | list ops =>
    obtain ⟨left, base, right, hn⟩ := Term.node_of_isListOf (of?_eq_list.mp hk)
    rw [contents, Term.entries_of_list hn] at hkeeps ⊢
    simp only [ListParts.entries, List.forall_mem_append] at hkeeps
    obtain ⟨hleft, hmiddle, hright⟩ := hkeeps
    have hbase : (base.map Entry.part).flatMap (list ops).brings = base.flatMap (ListParts.partEntries ops) := by
      rw [List.flatMap_map]
      refine List.flatMap_congr fun b hb => ?_
      rcases Term.HasEntries.isPart_or_isRun h hn b hb with hpart | hrun
      · have hentries := ListParts.partEntries_of_isPart hpart
        rw [hentries]
        refine brings_of_keeps (hmiddle _ (List.mem_flatMap.mpr ⟨b, hb, ?_⟩))
        rw [hentries]
        exact List.mem_singleton_self _
      · obtain ⟨items, hm, -⟩ := ListParts.node_of_isRun hrun
        rw [partEntries_of_run hm]
        exact contents_of_run hm
    rw [ownSteps_of_list hn, List.flatMap_append, List.flatMap_append, flatMap_brings_of_keeps hleft, hbase,
      flatMap_brings_of_keeps hright]
    exact Same.refl (list ops) _

/-- What is put in is an entry, or a run of entries. -/
theorem ownStep_cases {e : Entry} (hk : of? t = some k) (h : k.HasContents t) (hkeeps : ∀ e ∈ k.contents t, k.keeps e)
    (he : e ∈ ownSteps t) : e ∈ k.contents t ∨ ∃ c, e = .part c ∧ k.IsLaid c ∧ ownSteps c ⊆ k.contents t ∧
      k.contents c ⊆ k.contents t := by
  cases k with
  | sequence =>
    obtain ⟨items, frame, hn⟩ := SequenceParts.node_of_not_isPlain (of?_eq_sequence.mp hk)
    rw [ownSteps_of_seq hn] at he
    exact .inl he
  | set ops =>
    obtain ⟨es, base, hn⟩ := Term.node_of_isSetOf (of?_eq_set.mp hk)
    rw [ownSteps_of_set hn, ← Term.setEntries_of_set hn] at he
    exact .inl he
  | list ops =>
    obtain ⟨left, base, right, hn⟩ := Term.node_of_isListOf (of?_eq_list.mp hk)
    rw [ownSteps_of_list hn] at he
    rw [contents, Term.entries_of_list hn] at hkeeps ⊢
    rcases List.mem_append.mp he with he | he
    · exact .inl (List.mem_append_left _ he)
    · rcases List.mem_append.mp he with he | he
      · obtain ⟨b, hb, rfl⟩ := List.mem_map.mp he
        have hsub : ListParts.partEntries ops b ⊆ ListParts.entries { ops, left, base, right } := fun f hf =>
          List.mem_append_right _ (List.mem_append_left _ (List.mem_flatMap.mpr ⟨b, hb, hf⟩))
        rcases Term.HasEntries.isPart_or_isRun h hn b hb with hpart | hrun
        · rw [ListParts.partEntries_of_isPart hpart] at hsub
          exact .inl (hsub List.mem_cons_self)
        · obtain ⟨items, hm, -⟩ := ListParts.node_of_isRun hrun
          rw [partEntries_of_run hm] at hsub
          have hkind : of? b = some (list ops) := by rw [of?, hm]
          have hcontents := contents_of_run hm
          refine .inr ⟨b, rfl, isLaid hkind ?_ fun f hf => hkeeps f (hsub (hcontents ▸ hf)), ?_, ?_⟩
          · exact Term.hasEntries_of_run hm fun c hc => hkeeps _ (hsub (List.mem_map_of_mem hc))
          · rw [ownSteps_of_list hm]
            simpa using hsub
          · exact hcontents ▸ hsub
      · exact .inl (List.mem_append_right _ (List.mem_append_right _ he))

end Collection

end RuleCompiler
