import RuleCompiler.Operators
import RuleCompiler.Proofs.Builder.Kept
import RuleCompiler.Proofs.Term.Instance

/-! # Builders in a world

What sequences, lists and sets are put together of the terms of a world is a term of a later one, since every
node that a builder makes is new. -/

namespace RuleCompiler

open Making (Makes)

namespace Making
variable {m : Type → Type} [Monad m] [MonadLiftT Build m] [Making m]
variable {α β : Type}

/-- An invariant of every step is one of the loop. -/
theorem foldlM {P : World → β → Prop} {f : β → α → m β} :
    ∀ {l : List α} {w : World} {b : β}, P w b →
      (∀ w' b, w ≤ w' → P w' b → ∀ a ∈ l, Makes w' (f b a) P) → Makes w (l.foldlM f b) P
  | [], w, b, hb, _ => by
    rw [List.foldlM_nil]
    exact Making.pure hb
  | a :: l, w, b, hb, h => by
    rw [List.foldlM_cons]
    refine Making.bind (h w b w.le_refl hb a List.mem_cons_self) fun w' c hw hc => ?_
    exact foldlM hc fun w'' d hw' hd e he => h w'' d (World.le_trans hw hw') hd e (List.mem_cons_of_mem a he)

end Making

/-- What a computation always gives, it gives in the world that it makes. -/
theorem Build.Makes.and_always {α : Type} {w : World} {x : Build α} {Q : World → α → Prop} {P : α → Prop}
    (hx : Makes w x Q) (hP : Always x P) : Makes w x fun w' a => Q w' a ∧ P a := by
  obtain ⟨a, w', hrun, hw, hc, hQ⟩ := hx
  obtain ⟨b, n', hrun', hb⟩ := hP w.next
  cases hrun.symm.trans hrun'
  exact ⟨a, w', hrun, hw, hc, hQ, hb⟩

/-- The terms are all of the world. -/
def World.HasAll (w : World) (ts : List Term) : Prop := ∀ t ∈ ts, w.Has t

namespace World.HasAll
variable {w w' : World} {ts us : List Term} {t : Term}

theorem nil (w : World) : w.HasAll [] := List.forall_mem_nil _

theorem mono (hw : w ≤ w') (h : w.HasAll ts) : w'.HasAll ts := fun t ht => (h t ht).mono hw

theorem append (h : w.HasAll ts) (h' : w.HasAll us) : w.HasAll (ts ++ us) := List.forall_mem_append.mpr ⟨h, h'⟩

theorem single (h : w.Has t) : w.HasAll [t] := List.forall_mem_singleton.mpr h

theorem children (h : w.Has t) : w.HasAll t.children := fun _ hc => h.child hc

end World.HasAll

open World (HasAll)

variable {w : World} {t : Term}

theorem Term.makes_has {n : Node Term} (h : w.HasAll n.children) : Makes w (new n) World.Has :=
  Making.mono (makes_new h) fun _ _ _ hu => hu.1

/-- A constant is no node of its own. -/
theorem World.has_unitTerm (w : World) (ops : CollectionOps) : w.Has ops.unitTerm :=
  .intro _ (fun h => by cases h) (List.forall_mem_nil _)

/-! ### Sequences -/

namespace SequenceParts
variable {p : SequenceParts}

theorem makes_allItems (hp : w.HasAll p.items) : Makes w p.allItems World.HasAll := by
  unfold allItems
  split
  · exact Making.pure hp
  · refine Making.bind (Term.makes_has (n := .var _) (HasAll.nil w)) fun w' v hw hv => Making.pure ?_
    exact (hp.mono hw).append (.single hv)

theorem makes_add (hp : w.HasAll p.items) (ht : w.Has t) :
    Makes w (p.add t) fun w' q => w'.HasAll q.items := by
  unfold add
  split
  · exact Making.pure hp
  · rename_i items frame _ hn
    refine Making.bind (makes_allItems hp) fun w' ts hw hts => Making.pure (hts.append ?_)
    refine HasAll.mono hw fun c hc => ht.child ?_
    rwa [Term.children, hn]
  · refine Making.bind (makes_allItems hp) fun w' ts hw hts => Making.pure ?_
    split
    · exact hts
    · exact hts.append (.single (ht.mono hw))
  · exact Making.bind (makes_allItems hp) fun w' ts hw hts => Making.pure (hts.append (.single (ht.mono hw)))

theorem makes_build (hp : w.HasAll p.items) : Makes w p.build World.Has := by
  unfold build
  split
  · exact Term.makes_has (HasAll.nil w)
  · exact Making.pure (hp _ List.mem_cons_self)
  · exact Term.makes_has hp

end SequenceParts

theorem Term.makes_sequence {ts : List Term} (hts : w.HasAll ts) : Makes w (sequence ts) World.Has := by
  refine Making.bind (P := fun w q => w.HasAll q.items) ?_ fun _ _ _ hq => SequenceParts.makes_build hq
  exact Making.foldlM (HasAll.nil w) fun w' p hw hp t ht => SequenceParts.makes_add hp ((hts t ht).mono hw)

/-! ### Lists -/

namespace ListParts
variable {p : ListParts}

theorem Holds.later {w' : World} (hw : w ≤ w') (hp : p.Holds w.Has) : p.Holds w'.Has :=
  ⟨HasAll.mono hw hp.left, HasAll.mono hw hp.base, HasAll.mono hw hp.right⟩

theorem makes_closeRight (hp : p.Holds w.Has) : Makes w p.closeRight fun w' q => q.Holds w'.Has := by
  unfold closeRight
  split
  · exact Making.pure hp
  · refine Making.bind (Term.makes_has (n := .list p.ops p.right [] []) ?_) fun w' u hw hu => Making.pure ?_
    · have hrun : Holds w.Has { ops := p.ops, left := p.right } := ⟨hp.right, HasAll.nil w, HasAll.nil w⟩
      exact holds_iff.mp hrun
    · exact ⟨HasAll.mono hw hp.left, (HasAll.mono hw hp.base).append (.single hu), HasAll.nil w'⟩

theorem makes_addOperand (hp : p.Holds w.Has) (ht : w.Has t) :
    Makes w (p.addOperand t) fun w' q => q.Holds w'.Has := by
  unfold addOperand
  split
  · refine Making.bind (makes_closeRight hp) fun w' q hw hq => Making.pure ?_
    exact ⟨hq.left, HasAll.append hq.base (.single (ht.mono hw)), hq.right⟩
  · exact Making.pure (holds_addItem hp ht)

theorem makes_concat (hp : p.Holds w.Has) (ht : w.Has t) : Makes w (p.concat t) fun w' q => q.Holds w'.Has := by
  unfold concat
  split
  · rename_i ops left base right hn
    have hparts : Holds w.Has { ops, left, base, right } := by
      refine holds_iff.mpr fun c hc => ht.child ?_
      rwa [Term.children, hn]
    split
    · have hleft := holds_addItems hp hparts.left
      split
      · exact Making.pure hleft
      · refine Making.bind (makes_closeRight hleft) fun w' q hw hq => Making.pure ?_
        have hparts := hparts.later hw
        exact ⟨hq.left, HasAll.append hq.base hparts.base, HasAll.append hq.right hparts.right⟩
    · exact makes_addOperand hp ht
  · split
    · exact Making.pure hp
    · exact makes_addOperand hp ht

theorem makes_build (hp : p.Holds w.Has) : Makes w p.build World.Has := by
  have hnew {q : ListParts} (hq : q.Holds w.Has) : Makes w (Term.new (.list q.ops q.left q.base q.right)) World.Has :=
    Term.makes_has (holds_iff.mp hq)
  obtain ⟨ops, left, base, right⟩ := p
  unfold build
  split
  · exact Making.pure (hp.base _ (by simp_all))
  · split
    · exact Making.pure (w.has_unitTerm ops)
    · exact hnew (q := ⟨ops, [], [], right⟩) ⟨HasAll.nil w, HasAll.nil w, hp.right⟩
  · rename_i t hleft _
    have hone : w.HasAll [t] := hleft ▸ hp.left
    split
    · exact Making.pure (hone t List.mem_cons_self)
    · exact hnew (q := ⟨ops, [t], [], right⟩) ⟨hone, HasAll.nil w, hp.right⟩
  · exact hnew hp

/-- The list of the terms. -/
theorem makes_list (ops : CollectionOps) {ts : List Term} (hts : w.HasAll ts) :
    Makes w (do (← ts.foldlM concat { ops }).build) World.Has := by
  refine Making.bind (P := fun w q => q.Holds w.Has) ?_ fun _ _ _ hq => makes_build hq
  exact Making.foldlM (holds_empty _ ops) fun w' p hw hp t ht => makes_concat hp ((hts t ht).mono hw)

end ListParts

/-! ### Sets -/

namespace SetParts
variable {p : SetParts}

theorem has_concat (hp : p.Holds w.Has) (ht : w.Has t) : (p.concat t).Holds w.Has := by
  have hone := hp.addBase (List.forall_mem_singleton.mpr ht)
  unfold concat
  split
  · rename_i ops elements base hn
    have hparts : Holds w.Has { ops, elements, base } := by
      refine holds_iff.mpr fun c hc => ht.child ?_
      rwa [Term.children, hn]
    split
    · exact (holds_addAll hp hparts.elements).addBase hparts.base
    · exact hone
  · split
    · exact hp
    · exact hone

theorem makes_build (hp : p.Holds w.Has) : Makes w p.build World.Has := by
  unfold build
  split
  · exact Making.pure (hp.base _ (by simp_all))
  · refine Term.makes_has (List.forall_mem_append.mpr ⟨hp.elements, fun t ht => ?_⟩)
    exact hp.base t (SortedList.mem_sort.mp ht)

end SetParts

/-! ### Operators -/

namespace Term

/-- Operands under a binary operator. -/
theorem makes_nestRight (ops : CollectionOps) : ∀ {ts : List Term} {w : World}, w.HasAll ts →
    Makes w (nestRight ops ts) World.Has
  | [], w, _ => Making.pure (w.has_unitTerm ops)
  | [_], _, hts => Making.pure (hts _ List.mem_cons_self)
  | t :: u :: ts, w, hts => by
    obtain ⟨ht, hrest⟩ := List.forall_mem_cons.mp hts
    refine Making.bind (makes_nestRight ops hrest) fun w' v hw hv => makes_has ?_
    exact HasAll.append (.single (ht.mono hw)) (.single hv)

theorem makes_flattenNode (labels : LabelTable) (ht : w.Has t) : Makes w (flattenNode labels t) World.Has := by
  unfold flattenNode
  split
  · rename_i l args s hn
    split
    · exact ListParts.makes_list _ fun c hc => ht.child (by rwa [children, hn])
    · exact Making.pure ht
  · exact Making.pure ht

theorem makes_unflattenNode (ht : w.Has t) : Makes w (unflattenNode t) World.Has := by
  unfold unflattenNode
  split
  · rename_i ops left base right hn
    split
    · exact makes_nestRight ops fun c hc => ht.child (by rwa [children, hn])
    · exact Making.pure ht
  · exact Making.pure ht

end Term

end RuleCompiler
