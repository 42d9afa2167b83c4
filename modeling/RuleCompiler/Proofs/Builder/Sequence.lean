import RuleCompiler.Proofs.Builder.Ground
import RuleCompiler.Proofs.Term.Walk

/-! # Sequences of any terms

A sequence is known by its items, with the frame as the last of them. Terms that are put together to
a sequence put together their items; which of them the sequence keeps and which becomes its frame goes
by the last one alone. -/

namespace RuleCompiler

open Build (Always)
open Term (Equal)

namespace Term
variable {t u : Term}

theorem beq_of_node_eq (h : u.node = t.node) : u == t := by
  rw [beq_iff_mapChildren, h]

theorem segment?_congr (h : t == u) : Matching.segment? t = Matching.segment? u := by
  rw [Matching.segment?, Matching.segment?, asVar?_congr h]

theorem node_of_segment? {v : Var} (h : Matching.segment? t = some v) : t.node = .var v ∧ v.sort = .k := by
  obtain ⟨hv, hk⟩ := Option.filter_eq_some_iff.mp h
  exact ⟨node_of_asVar? hv, of_decide_eq_true hk⟩

/-- The items of the term as a part of a sequence. -/
def sequenceItems (t : Term) : List Term :=
  match t.node with
  | .seq items frame => items ++ frame.toList.map fun v => canonical (.var v)
  | _ => [t]

end Term

namespace SequenceParts
variable {p : SequenceParts} {t u : Term} {w w' : List Term}

/-- Whether a sequence takes the term as one item or as its frame. -/
def isPlain (t : Term) : Bool :=
  match t.node with
  | .seq .. => false
  | _ => true

/-- Whether builders leave the sequence as it is: no item is a sequence, and it has a frame if a
segment ends it. -/
def isProper (p : SequenceParts) : Bool :=
  p.isNormal && p.frame.all (·.sort = .k) && !(p.items.isEmpty && p.frame.isSome) &&
    (p.frame.isSome || p.items.getLast?.all fun t => (Matching.segment? t).isNone)

/-- The parts of a sequence of these items. -/
def ofItems (w : List Term) : SequenceParts :=
  match w.getLast?.bind Matching.segment? with
  | some v => ⟨w.dropLast, some v⟩
  | none => ⟨w, none⟩

/-- What `build` makes of the parts, in nodes without numbers. -/
def whole : SequenceParts → Term
  | ⟨[], some v⟩ => .canonical (.var v)
  | ⟨[t], none⟩ => t
  | ⟨items, frame⟩ => .canonical (.seq items frame)

theorem isPlain_congr (h : t == u) : isPlain t = isPlain u := by
  have h := Term.alike_of_beq h
  rw [isPlain, isPlain]
  generalize t.node = m, u.node = n at h
  cases h <;> rfl

theorem node_of_not_isPlain (h : isPlain t = false) : ∃ items frame, t.node = .seq items frame := by
  unfold isPlain at h
  split at h
  · exact ⟨_, _, ‹_›⟩
  · cases h

theorem sequenceItems_of_isPlain (h : isPlain t) : t.sequenceItems = [t] := by
  unfold isPlain at h
  unfold Term.sequenceItems
  split <;> simp_all

theorem segment?_of_not_var (h : ∀ v, t.node ≠ .var v) : Matching.segment? t = none := by
  rw [Matching.segment?, Term.asVar?]
  split
  · exact absurd ‹_› (h _)
  · rfl

theorem isProper_iff : p.isProper ↔ (∀ t ∈ p.items, isPlain t) ∧ (p.items.length = 1 → p.frame ≠ none) ∧
    (p.items = [] → p.frame = none) ∧ (∀ v ∈ p.frame, v.sort = .k) ∧
      (p.frame = none → ∀ t ∈ p.items.getLast?, Matching.segment? t = none) := by
  have hnormal : p.isNormal = (!(p.items.length == 1 && p.frame.isNone) && p.items.all isPlain) := rfl
  obtain ⟨items, frame⟩ := p
  rw [isProper, hnormal]
  cases frame with
  | none => cases items.getLast? <;> simp [and_assoc, and_comm, and_left_comm]
  | some v => simp [and_assoc, and_comm, and_left_comm]

/-! ### Items -/

theorem ofItems_concat (w : List Term) (t : Term) : ofItems (w ++ [t]) = match Matching.segment? t with
    | some v => ⟨w, some v⟩
    | none => ⟨w ++ [t], none⟩ := by
  rw [ofItems, List.getLast?_concat, List.dropLast_concat]
  rfl

/-- The parts have equal items and the same frame. -/
structure Alike (p q : SequenceParts) : Prop where
  items : Equal p.items q.items
  frame : p.frame = q.frame

theorem ofItems_congr (h : Equal w w') : (ofItems w).Alike (ofItems w') := by
  rcases List.eq_nil_or_concat' w' with rfl | ⟨front', t', rfl⟩
  · cases h
    exact ⟨.nil, rfl⟩
  · obtain ⟨front, back, rfl, hfront, hback⟩ := h.exists_append
    obtain ⟨t, rfl, ht⟩ : ∃ t, back = [t] ∧ t == t' := by
      cases hback with | cons ht hback => cases hback; exact ⟨_, rfl, ht⟩
    rw [ofItems_concat, ofItems_concat, Term.segment?_congr ht]
    split
    · exact ⟨hfront, rfl⟩
    · exact ⟨h, rfl⟩

/-- All items, with the frame made an item. -/
theorem equal_ofItems (w : List Term) :
    Equal ((ofItems w).items ++ (ofItems w).frame.toList.map fun v => .canonical (.var v)) w := by
  rcases List.eq_nil_or_concat' w with rfl | ⟨front, t, rfl⟩
  · exact .nil
  · rw [ofItems_concat]
    split
    · rename_i v hv
      have ht := Term.beq_of_node_eq (t := t) (u := .canonical (.var v)) (Term.node_of_segment? hv).1.symm
      exact Term.Equal.append (.refl front) (.cons ht .nil)
    · rw [Option.toList_none, List.map_nil, List.append_nil]
      exact .refl _

/-- Proper parts stay as they are behind other items. -/
theorem ofItems_append (h : p.isProper) (hne : p.items ≠ [] ∨ p.frame ≠ none) (w : List Term) :
    ofItems (w ++ (p.items ++ p.frame.toList.map fun v => .canonical (.var v))) =
      ⟨w ++ p.items, p.frame⟩ := by
  obtain ⟨items, frame⟩ := p
  obtain ⟨-, -, -, hsort, hlast⟩ := isProper_iff.mp h
  cases frame with
  | some v =>
    have hv : Matching.segment? (.canonical (.var v)) = some v :=
      Option.filter_eq_some_iff.mpr ⟨rfl, decide_eq_true (hsort v rfl)⟩
    rw [Option.toList_some, List.map_singleton, ← List.append_assoc, ofItems_concat, hv]
  | none =>
    rw [Option.toList_none, List.map_nil, List.append_nil]
    rcases List.eq_nil_or_concat' items with rfl | ⟨front, t, rfl⟩
    · simp at hne
    · rw [← List.append_assoc, ofItems_concat, hlast rfl t List.getLast?_concat]

/-- Proper parts are those of their own items. -/
theorem isProper.ofItems_items (h : p.isProper) :
    ofItems (p.items ++ p.frame.toList.map fun v => .canonical (.var v)) = p := by
  by_cases hne : p.items ≠ [] ∨ p.frame ≠ none
  · exact ofItems_append h hne []
  · obtain ⟨items, frame⟩ := p
    rw [not_or, not_not, not_not] at hne
    obtain ⟨rfl, rfl⟩ := hne
    rfl

/-! ### Building -/

theorem always_allItems (h : p.Alike (ofItems w)) : Always p.allItems (Equal · w) := by
  unfold allItems
  obtain ⟨hitems, hframe⟩ := h
  have hw := equal_ofItems w
  rw [← hframe] at hw
  cases hp : p.frame with
  | none =>
    rw [hp, Option.toList_none, List.map_nil, List.append_nil] at hw
    exact .pure (hitems.trans hw)
  | some v =>
    rw [hp] at hw
    refine (Term.always_new _).bind fun u hu => .pure ?_
    exact (hitems.append (.cons (Term.beq_of_node_eq hu) .nil)).trans hw

/-- A part adds its items. -/
theorem always_add (h : p.Alike (ofItems w))
    (ht : ∀ items frame, t.node = .seq items frame → isProper ⟨items, frame⟩) :
    Always (p.add t) fun q => q.Alike (ofItems (w ++ t.sequenceItems)) := by
  have hitem (hv : Matching.segment? t = none) :
      Always (do return ⟨(← p.allItems) ++ [t], none⟩)
        fun q : SequenceParts => q.Alike (ofItems (w ++ [t])) := by
    refine (always_allItems h).bind fun us hus => .pure ?_
    rw [ofItems_concat, hv]
    exact ⟨hus.append (.refl _), rfl⟩
  unfold add
  split
  · rename_i hn
    have hitems : t.sequenceItems = [] := by rw [Term.sequenceItems, hn]; rfl
    rw [hitems, List.append_nil]
    exact .pure h
  · rename_i items frame hempty hn
    have hproper := ht items frame hn
    have hitems : t.sequenceItems = items ++ frame.toList.map fun v => .canonical (.var v) := by
      rw [Term.sequenceItems, hn]
    have hne : items ≠ [] ∨ frame ≠ none := by
      by_contra hno
      rw [not_or, not_not, not_not] at hno
      exact hempty hno.1 hno.2
    rw [hitems, ofItems_append hproper hne w]
    exact (always_allItems h).bind fun us hus => .pure ⟨hus.append (.refl items), rfl⟩
  · rename_i v hn
    have hitems : t.sequenceItems = [t] := by rw [Term.sequenceItems, hn]
    rw [hitems]
    by_cases hk : v.sort = .k
    · simp only [hk, if_true]
      refine (always_allItems h).bind fun us hus => .pure ?_
      have hv : Matching.segment? t = some v := by
        rw [Matching.segment?, Term.asVar?_of_var hn]
        exact Option.filter_eq_some_iff.mpr ⟨rfl, decide_eq_true hk⟩
      rw [ofItems_concat, hv]
      exact ⟨hus, rfl⟩
    · simp only [hk, if_false]
      refine hitem ?_
      rw [Matching.segment?, Term.asVar?_of_var hn]
      exact Option.filter_eq_none_iff.mpr fun w hw => by cases hw; simpa using hk
  · rename_i hseq hvar
    have hitems : t.sequenceItems = [t] := by
      rw [Term.sequenceItems]
      split
      · exact absurd ‹_› (hseq _ _)
      · rfl
    rw [hitems]
    exact hitem (segment?_of_not_var hvar)

theorem always_addAll {ts : List Term} : ∀ {p : SequenceParts} {w : List Term}, p.Alike (ofItems w) →
    (∀ t ∈ ts, ∀ items frame, t.node = .seq items frame → isProper ⟨items, frame⟩) →
      Always (p.addAll ts) fun q => q.Alike (ofItems (w ++ ts.flatMap Term.sequenceItems)) := by
  induction ts with
  | nil =>
    intro p w h _
    rw [addAll, List.foldlM_nil, List.flatMap_nil, List.append_nil]
    exact .pure h
  | cons t ts ih =>
    intro p w h hts
    obtain ⟨ht, hts⟩ := List.forall_mem_cons.mp hts
    rw [addAll, List.foldlM_cons, List.flatMap_cons, ← List.append_assoc]
    exact (always_add h ht).bind fun q hq => ih hq hts

theorem always_build_whole {q : SequenceParts} (h : p.Alike q) : Always p.build (· == q.whole) := by
  obtain ⟨items, frame⟩ := p
  obtain ⟨items', frame'⟩ := q
  obtain ⟨hitems, rfl⟩ := h
  dsimp only at hitems
  have hnew : Always (Term.new (.seq items frame)) (· == .canonical (.seq items' frame)) :=
    (Term.always_new _).mono fun t ht => Term.beq_of_alike (ht ▸ .seq hitems)
  rcases hitems with _ | ⟨h, hitems⟩
  · cases frame with
    | some v => exact (Term.always_new (.var v)).mono fun t ht => Term.beq_of_node_eq ht
    | none => exact hnew
  · cases hitems with
    | nil =>
      cases frame with
      | some v => exact hnew
      | none => exact .pure h
    | cons _ _ => exact hnew

end SequenceParts

/-! ### Sequences and their items -/

namespace SequenceParts
variable {p q : SequenceParts} {w w' : List Term}

theorem whole_congr (h : p.Alike q) : p.whole == q.whole := by
  obtain ⟨items, frame⟩ := p
  obtain ⟨items', frame'⟩ := q
  obtain ⟨hitems, rfl⟩ := h
  dsimp only at hitems
  have hnew : (Term.canonical (.seq items frame) : Term) == .canonical (.seq items' frame) :=
    Term.beq_of_alike (.seq hitems)
  rcases hitems with _ | ⟨h, hitems⟩
  · cases frame with
    | some v => exact Term.beq_of_node_eq rfl
    | none => exact hnew
  · cases hitems with
    | nil =>
      cases frame with
      | some v => exact hnew
      | none => exact h
    | cons _ _ => exact hnew

theorem sequenceItems_whole (h : ∀ t ∈ p.items, isPlain t) :
    p.whole.sequenceItems = p.items ++ p.frame.toList.map fun v => .canonical (.var v) := by
  unfold whole
  split
  · rfl
  · exact sequenceItems_of_isPlain (h _ List.mem_cons_self)
  · rfl

theorem ofItems_subset (w : List Term) : (ofItems w).items ⊆ w := by
  unfold ofItems
  split
  · exact List.dropLast_subset w
  · exact List.Subset.refl w

theorem isPlain_ofItems (h : ∀ t ∈ w, isPlain t) : ∀ t ∈ (ofItems w).items, isPlain t :=
  fun t ht => h t (ofItems_subset w ht)

/-- The parts of some items that make a sequence are proper. -/
theorem isProper_ofItems (h : ∀ t ∈ w, isPlain t)
    (hone : ∀ t, ofItems w ≠ ⟨[t], none⟩) (hframe : ∀ v, ofItems w ≠ ⟨[], some v⟩) :
    (ofItems w).isProper := by
  refine isProper_iff.mpr ⟨isPlain_ofItems h, fun hlen hnone => ?_, fun hnil => ?_, ?_⟩
  · obtain ⟨t, ht⟩ := List.length_eq_one_iff.mp hlen
    exact hone t (by rw [← ht, ← hnone])
  · by_contra hsome
    obtain ⟨v, hv⟩ := Option.ne_none_iff_exists'.mp hsome
    exact hframe v (by rw [← hv, ← hnil])
  · rcases List.eq_nil_or_concat' w with rfl | ⟨front, t, rfl⟩
    · simp [ofItems]
    · rw [ofItems_concat]
      split <;> rename_i hv
      · have hsort := (Term.node_of_segment? hv).2
        simp [hsort]
      · simp [hv]

end SequenceParts

namespace Term
variable {t u : Term} {w w' : List Term}

/-- The sequence of some items. -/
def sequenceOf (w : List Term) : Term := (SequenceParts.ofItems w).whole

theorem sequenceItems_congr (h : t == u) : Equal t.sequenceItems u.sequenceItems := by
  have hself : Equal [t] [u] := .cons h .nil
  have h := alike_of_beq h
  rw [sequenceItems, sequenceItems]
  generalize t.node = m, u.node = n at h
  cases h with
  | seq h => exact Equal.append h (.refl _)
  | _ => exact hself

/-- Only a sequence of several items is a node of its own. -/
theorem sequenceOf_cases (w : List Term) : (∃ v, sequenceOf w = canonical (.var v)) ∨
    (∃ t, w = [t] ∧ sequenceOf w = t) ∨ ∃ items frame, sequenceOf w = canonical (.seq items frame) := by
  rw [sequenceOf, SequenceParts.ofItems]
  split
  · rcases w.dropLast with _ | ⟨_, _ | _⟩
    · exact .inl ⟨_, rfl⟩
    all_goals exact .inr (.inr ⟨_, _, rfl⟩)
  · rcases w with _ | ⟨t, _ | _⟩
    · exact .inr (.inr ⟨_, _, rfl⟩)
    · exact .inr (.inl ⟨t, rfl, rfl⟩)
    · exact .inr (.inr ⟨_, _, rfl⟩)

theorem flatMap_sequenceItems (h : ∀ t ∈ w, SequenceParts.isPlain t) : w.flatMap sequenceItems = w := by
  rw [List.flatMap_congr fun t ht => SequenceParts.sequenceItems_of_isPlain (h t ht), List.flatMap_singleton']

theorem sequenceOf_congr (h : Equal w w') : sequenceOf w == sequenceOf w' :=
  SequenceParts.whole_congr (SequenceParts.ofItems_congr h)

theorem equal_sequenceItems (h : ∀ t ∈ w, SequenceParts.isPlain t) :
    Equal (sequenceOf w).sequenceItems w := by
  rw [sequenceOf, SequenceParts.sequenceItems_whole (SequenceParts.isPlain_ofItems h)]
  exact SequenceParts.equal_ofItems w

theorem mem_sequenceItems_sequenceOf (h : ∀ t ∈ w, SequenceParts.isPlain t)
    (ht : t ∈ (sequenceOf w).sequenceItems) : t ∈ w ∨ ∃ v, t = canonical (.var v) := by
  rw [sequenceOf, SequenceParts.sequenceItems_whole (SequenceParts.isPlain_ofItems h)] at ht
  rcases List.mem_append.mp ht with ht | ht
  · exact .inl (SequenceParts.ofItems_subset w ht)
  · obtain ⟨v, -, rfl⟩ := List.mem_map.mp ht
    exact .inr ⟨v, rfl⟩

/-- Whether the term is a proper sequence, if it is one at all. -/
def HasProperItems (t : Term) : Prop :=
  ∀ items frame, t.node = .seq items frame → SequenceParts.isProper ⟨items, frame⟩

theorem HasProperItems.congr (h : t == u) (hu : HasProperItems u) : HasProperItems t := by
  intro items frame hn
  have h := alike_of_beq h
  rw [hn] at h
  generalize hm : u.node = m at h
  cases h with
  | @seq _ items' _ h =>
    obtain ⟨hplain, hlen, hempty, hsort, hlast⟩ := SequenceParts.isProper_iff.mp (hu items' frame hm)
    refine SequenceParts.isProper_iff.mpr ⟨fun c hc => ?_, fun h' => ?_, fun h' => ?_, hsort, fun h' => ?_⟩
    · obtain ⟨d, hd, hcd⟩ := PairedLists.exists_mem h hc
      rw [SequenceParts.isPlain_congr hcd]
      exact hplain d hd
    · exact hlen (h.length_eq.symm.trans h')
    · cases (h' : items = [])
      cases h
      exact hempty rfl
    · intro c hc
      rw [List.getLast?_eq_getElem?] at hc
      obtain ⟨d, hd, hcd⟩ := PairedLists.exists_getElem? h hc
      rw [segment?_congr hcd]
      exact hlast h' d (by rw [List.getLast?_eq_getElem?, ← h.length_eq]; exact hd)

theorem hasProperItems_of_isPlain (h : SequenceParts.isPlain t) : HasProperItems t := by
  intro items frame hn
  rw [SequenceParts.isPlain, hn] at h
  cases h

theorem HasProperItems.isPlain_items (h : HasProperItems t) :
    ∀ u ∈ t.sequenceItems, SequenceParts.isPlain u := by
  cases hplain : SequenceParts.isPlain t with
  | true =>
    rw [SequenceParts.sequenceItems_of_isPlain hplain]
    exact List.forall_mem_singleton.mpr hplain
  | false =>
    obtain ⟨items, frame, hn⟩ := SequenceParts.node_of_not_isPlain hplain
    rw [sequenceItems, hn]
    refine List.forall_mem_append.mpr ⟨(SequenceParts.isProper_iff.mp (h items frame hn)).1, fun u hu => ?_⟩
    obtain ⟨v, -, rfl⟩ := List.mem_map.mp hu
    rfl

theorem hasProperItems_sequenceOf (h : ∀ t ∈ w, SequenceParts.isPlain t) : HasProperItems (sequenceOf w) := by
  have hproper := SequenceParts.isProper_ofItems h
  have hplain := SequenceParts.isPlain_ofItems h
  rw [sequenceOf]
  generalize SequenceParts.ofItems w = p at hproper hplain
  intro items frame hn
  unfold SequenceParts.whole at hn
  split at hn
  · cases hn
  · have hplain := hplain _ List.mem_cons_self
    rw [SequenceParts.isPlain, hn] at hplain
    cases hplain
  · rename_i items' frame' hframe hone
    cases hn
    refine hproper (fun t h => ?_) fun v h => ?_
    · cases h
      exact hone t rfl rfl
    · cases h
      exact hframe v rfl rfl

/-- A proper sequence is the sequence of its items. -/
theorem sequenceOf_of_isProper {items : List Term} {frame : Option Var}
    (h : SequenceParts.isProper ⟨items, frame⟩) :
    sequenceOf (items ++ frame.toList.map fun v => canonical (.var v)) = canonical (.seq items frame) := by
  obtain ⟨-, hlen, hempty, -, -⟩ := SequenceParts.isProper_iff.mp h
  rw [sequenceOf, SequenceParts.isProper.ofItems_items h]
  unfold SequenceParts.whole
  split <;> rename_i hp <;> cases hp
  · cases hempty rfl
  · exact absurd rfl (hlen rfl)
  · rfl

/-- A term is the sequence of its items. -/
theorem HasProperItems.beq_sequenceOf (h : HasProperItems t) : t == sequenceOf t.sequenceItems := by
  cases hplain : SequenceParts.isPlain t with
  | true =>
    rw [SequenceParts.sequenceItems_of_isPlain hplain, sequenceOf, ← List.nil_append [t],
      SequenceParts.ofItems_concat]
    split <;> rename_i hv
    · exact beq_of_node_eq (node_of_segment? hv).1
    · exact beq_of_node_eq rfl
  | false =>
    obtain ⟨items, frame, hn⟩ := SequenceParts.node_of_not_isPlain hplain
    rw [sequenceItems, hn, sequenceOf_of_isProper (h items frame hn)]
    exact beq_of_node_eq hn

/-- Terms are put together to the sequence of their items. -/
theorem always_sequence {ts : List Term} (hts : ∀ t ∈ ts, HasProperItems t) :
    Always (sequence ts) (· == sequenceOf (ts.flatMap sequenceItems)) := by
  have hempty : SequenceParts.Alike {} (.ofItems []) := ⟨.nil, rfl⟩
  exact (SequenceParts.always_addAll hempty hts).bind fun _ hp => SequenceParts.always_build_whole hp

end Term

end RuleCompiler
