import RuleCompiler.Evaluation
import RuleCompiler.Proofs.Returns
import RuleCompiler.Proofs.Term.Expr

/-! # Worlds

Whether a node is kept or made anew depends on numbers alone, so a walk gives the right term only
where different terms have different numbers. A world is what the nodes made so far say, by number.
`Making.makes w x Q` says that `x`, run in the world `w`, gives a value, and that `Q` holds of it in
a later world, in which everything from `w` is still what it was. -/

namespace RuleCompiler

namespace Budget

/-- Whether nothing was refused. -/
def isClean (b : Budget) : Bool := !b.exhausted && !b.tooDeep

end Budget

structure World where
  /-- The number of the next node. -/
  next : Nat
  /-- What a node says. -/
  meaning : Nat → Expr
  /-- Whether no evaluation was refused. -/
  isClean : Bool := true

namespace World

/-- The one world comes later than the other. -/
instance : LE World :=
  ⟨fun w w' => w.next ≤ w'.next ∧ (∀ i < w.next, w'.meaning i = w.meaning i) ∧ (w'.isClean → w.isClean)⟩

variable {w w' w'' : World}

@[simp] theorem le_refl (w : World) : w ≤ w := ⟨Nat.le_refl _, fun _ _ => rfl, id⟩

theorem le_trans (h : w ≤ w') (h' : w' ≤ w'') : w ≤ w'' := by
  obtain ⟨hn, hs, hc⟩ := h
  obtain ⟨hn', hs', hc'⟩ := h'
  refine ⟨by omega, fun i hi => ?_, fun h => hc (hc' h)⟩
  rw [hs' i (by omega), hs i hi]

/-- Every node of the term is one of the world. -/
inductive Has (w : World) : Term → Prop where
  | intro (t : Term)
      (node : t.isCanonical = false → t.mark.id < w.next ∧ w.meaning t.mark.id = t.expr)
      (below : ∀ c ∈ t.children, Has w c) : Has w t

theorem Has.node {t : Term} (h : w.Has t) (ht : t.isCanonical = false) :
    t.mark.id < w.next ∧ w.meaning t.mark.id = t.expr := by
  cases h with
  | intro _ node _ => exact node ht

theorem Has.child {t c : Term} (h : w.Has t) (hc : c ∈ t.children) : w.Has c := by
  cases h with
  | intro _ _ below => exact below c hc

theorem Has.mono (hw : w ≤ w') {t : Term} (h : w.Has t) : w'.Has t := by
  induction h with
  | intro t node _ ih =>
    refine .intro t (fun ht => ?_) ih
    obtain ⟨hid, hsays⟩ := node ht
    exact ⟨Nat.lt_of_lt_of_le hid hw.1, by rw [hw.2.1 _ hid, hsays]⟩

/-- Nodes that are the same say the same. -/
theorem Has.expr_eq_of_same {t u : Term} (ht : w.Has t) (hu : w.Has u) (h : t.same u) :
    t.expr = u.expr := by
  unfold Term.same at h
  split at h
  · rw [Bool.and_eq_true] at h
    exact Term.beq_iff_expr.mp h.2
  · rename_i hc
    simp only [Bool.and_eq_true, Bool.not_eq_true', beq_iff_eq] at h
    rw [← (ht.node (by simpa using hc)).2, ← (hu.node h.1).2, h.2]

/-- The first-order terms of a world. -/
structure Knows (w : World) (D : Term → Bool) (t : Term) : Prop where
  has : w.Has t
  isFirstOrder : t.isFirstOrder D

namespace Knows
variable {D : Term → Bool} {t : Term}

theorem mono (hw : w ≤ w') (h : w.Knows D t) : w'.Knows D t := ⟨h.has.mono hw, h.isFirstOrder⟩

theorem arg (h : w.Knows D t) {l : String} {args : List Term} {s : SortName}
    (hn : t.node = .app (.const l) args s) {a : Term} (ha : a ∈ args) : w.Knows D a := by
  refine ⟨h.has.child ?_, (Term.isFirstOrder_app hn).mp h.isFirstOrder a ha⟩
  rwa [Term.children, hn]

end Knows

end World

namespace Term

theorem subterms_eq (t : Term) : t.subterms = t :: (t.children.flatMap subterms ++ t.frameTerms) := by
  rw [subterms, visited, fold_eq, ← visited, ← subterms, List.flatMap]
  rfl

/-- Every node is numbered below `n`, and nodes of one number are one term. -/
def AreNumbered (n : Nat) (ts : List Term) : Prop :=
  ∀ a ∈ ts.flatMap subterms, a.isCanonical = false → a.mark.id < n ∧
    ∀ b ∈ ts.flatMap subterms, b.isCanonical = false → b.mark.id = a.mark.id → b == a

instance (n : Nat) (ts : List Term) : Decidable (AreNumbered n ts) := by
  unfold AreNumbered
  infer_instance

/-- Every node is numbered below `n`, and nodes of one number are one term. -/
def AreHeap (n : Nat) (ts : List Term) : Prop :=
  ∀ a ∈ ts.flatMap nodes, a.isCanonical = false → a.mark.id < n ∧
    ∀ b ∈ ts.flatMap nodes, b.isCanonical = false → b.mark.id = a.mark.id → b == a

instance (n : Nat) (ts : List Term) : Decidable (AreHeap n ts) := by
  unfold AreHeap
  infer_instance

theorem nodes_eq (t : Term) : t.nodes = t :: t.children.flatMap nodes := by
  rw [nodes, fold_eq, ← nodes, List.flatMap]

theorem forall_mem_nodes {t : Term} {p : Term → Prop} : (∀ d ∈ t.nodes, p d) ↔ p t ∧ ∀ c ∈ t.children, ∀ d ∈ c.nodes, p d := by
  rw [nodes_eq, List.forall_mem_cons]
  simp only [List.mem_flatMap, forall_exists_index, and_imp]
  exact and_congr_right fun _ => ⟨fun h c hc d hd => h d c hc hd, fun h d c hc hd => h c hc d hd⟩

theorem self_mem_nodes (t : Term) : t ∈ t.nodes := by
  rw [nodes_eq]
  exact List.mem_cons_self

theorem nodes_child {t c : Term} (hc : c ∈ t.children) : c.nodes ⊆ t.nodes := by
  intro u hu
  rw [t.nodes_eq]
  exact List.mem_cons_of_mem _ (List.mem_flatMap.mpr ⟨c, hc, hu⟩)

theorem nodes_subset_subterms (t : Term) : t.nodes ⊆ t.subterms := by
  induction t using Term.induction with
  | h t ih =>
    rw [nodes_eq, subterms_eq]
    refine List.cons_subset_cons t fun u hu => List.mem_append_left _ ?_
    obtain ⟨c, hc, hu⟩ := List.mem_flatMap.mp hu
    exact List.mem_flatMap.mpr ⟨c, hc, ih c hc hu⟩

end Term

namespace World
variable {n : Nat} {ts : List Term}

/-- What the nodes say that are listed. -/
def ofNodes (n : Nat) (l : List Term) : World where
  next := n
  meaning i := (l.find? fun a => !a.isCanonical && a.mark.id == i).elim default Term.expr

theorem has_ofNodes {l : List Term} (h : ∀ a ∈ l, a.isCanonical = false → a.mark.id < n ∧
    ∀ b ∈ l, b.isCanonical = false → b.mark.id = a.mark.id → b == a) {t : Term} (ht : t.nodes ⊆ l) :
    (ofNodes n l).Has t := by
  induction t using Term.induction with
  | h t ih =>
    refine .intro t (fun hc => ?_) fun c hc => ih c hc fun u hu => ht (Term.nodes_child hc hu)
    have hself := ht t.self_mem_nodes
    obtain ⟨hlt, hsame⟩ := h t hself hc
    refine ⟨hlt, ?_⟩
    have hfound : (l.find? fun a => !a.isCanonical && a.mark.id == t.mark.id).isSome :=
      List.find?_isSome.mpr ⟨t, hself, by simp [hc]⟩
    obtain ⟨a, ha⟩ := Option.isSome_iff_exists.mp hfound
    have hfits := List.find?_some ha
    simp only [Bool.and_eq_true, Bool.not_eq_true', beq_iff_eq] at hfits
    have hat := hsame a (List.mem_of_find?_eq_some ha) hfits.1 hfits.2
    show Option.elim _ default Term.expr = t.expr
    rw [ha]
    exact Term.beq_iff_expr.mp hat

/-- What the nodes of the terms say. -/
def ofTerms (n : Nat) (ts : List Term) : World := ofNodes n (ts.flatMap Term.subterms)

theorem has_ofTerms (h : Term.AreNumbered n ts) : ∀ t ∈ ts, (ofTerms n ts).Has t :=
  fun t ht => has_ofNodes h fun _ hu => List.mem_flatMap.mpr ⟨t, ht, t.nodes_subset_subterms hu⟩

theorem has_ofHeap (h : Term.AreHeap n ts) : ∀ t ∈ ts, (ofNodes n (ts.flatMap Term.nodes)).Has t :=
  fun t ht => has_ofNodes h fun _ hu => List.mem_flatMap.mpr ⟨t, ht, hu⟩

end World

/-! ### Computations -/

namespace Build

/-- The computation gives a value of which `Q` holds, and makes nodes at most. -/
def Makes {α : Type} (w : World) (x : Build α) (Q : World → α → Prop) : Prop :=
  ∃ a w', x w.next = (.ok a, w'.next) ∧ w ≤ w' ∧ w'.isClean = w.isClean ∧ Q w' a

section Makes
variable {α β : Type} {w : World} {x : Build α} {P Q : World → α → Prop}

theorem Makes.mono (hx : Makes w x P) (hPQ : ∀ w' a, w ≤ w' → P w' a → Q w' a) : Makes w x Q := by
  obtain ⟨a, w', hrun, hw, hc, hP⟩ := hx
  exact ⟨a, w', hrun, hw, hc, hPQ w' a hw hP⟩

theorem Makes.pure {a : α} (h : Q w a) : Makes w (Pure.pure a) Q :=
  ⟨a, w, rfl, w.le_refl, rfl, h⟩

theorem Makes.bind {f : α → Build β} {R : World → β → Prop} (hx : Makes w x P)
    (hf : ∀ w' a, w ≤ w' → P w' a → Makes w' (f a) R) : Makes w (x >>= f) R := by
  obtain ⟨a, w', hrun, hw, hc, hP⟩ := hx
  obtain ⟨b, w'', hrun', hw', hc', hR⟩ := hf w' a hw hP
  exact ⟨b, w'', by rw [bind_eq hrun, hrun'], World.le_trans hw hw', hc'.trans hc, hR⟩

end Makes

end Build

/-- Computations that make nodes. -/
class Making (m : Type → Type) [Monad m] [MonadLiftT Build m] where
  Makes {α : Type} (w : World) (x : m α) (Q : World → α → Prop) : Prop
  mono {α : Type} {w : World} {x : m α} {P Q : World → α → Prop} (hx : Makes w x P)
    (hPQ : ∀ w' a, w ≤ w' → P w' a → Q w' a) : Makes w x Q
  pure {α : Type} {w : World} {Q : World → α → Prop} {a : α} (h : Q w a) : Makes w (Pure.pure a) Q
  bind {α β : Type} {w : World} {x : m α} {f : α → m β} {P : World → α → Prop}
    {Q : World → β → Prop} (hx : Makes w x P) (hf : ∀ w' a, w ≤ w' → P w' a → Makes w' (f a) Q) :
    Makes w (x >>= f) Q
  lift {α : Type} {w : World} {x : Build α} {Q : World → α → Prop} (hx : Build.Makes w x Q) :
    Makes w (liftM x) Q

instance : Making Build where
  Makes := Build.Makes
  mono := Build.Makes.mono
  pure := Build.Makes.pure
  bind := Build.Makes.bind
  lift hx := hx

/-- An evaluation is followed from a budget as clean as the world. -/
instance : Making Evaluation where
  Makes w x Q := ∀ b : Budget, b.isClean = w.isClean →
    ∃ a b' w', x b w.next = (.ok (a, b'), w'.next) ∧ w ≤ w' ∧ b'.isClean = w'.isClean ∧ Q w' a
  mono hx hPQ b hb := by
    obtain ⟨a, b', w', hrun, hw, hc, hP⟩ := hx b hb
    exact ⟨a, b', w', hrun, hw, hc, hPQ w' a hw hP⟩
  pure h b hb := ⟨_, b, _, rfl, World.le_refl _, hb, h⟩
  bind {α β w x f P Q} hx hf b hb := by
    obtain ⟨a, b', w', hrun, hw, hc, hP⟩ := hx b hb
    obtain ⟨c, b'', w'', hrun', hw', hc', hQ⟩ := hf w' a hw hP b' hc
    refine ⟨c, b'', w'', ?_, World.le_trans hw hw', hc', hQ⟩
    exact (Build.bind_eq hrun).trans hrun'
  lift {α w x Q} hx b hb := by
    obtain ⟨a, w', hrun, hw, hc, hQ⟩ := hx
    exact ⟨a, b, w', Build.bind_eq hrun, hw, hb.trans hc.symm, hQ⟩

end RuleCompiler
