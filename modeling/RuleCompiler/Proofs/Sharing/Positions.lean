import Mathlib.Data.List.Nodup
import RuleCompiler.Proofs.Matching.Instances
import RuleCompiler.Proofs.World

/-! # Positions

Where a node stands in a list of terms: the number of the term and then the numbers of the children
that lead down to the node. Positions are ordered as a walk from left to right meets them, a node before
its children. Terms share nodes, so one node may stand at many positions. -/

namespace RuleCompiler.Term

variable {t u c : Term} {ts us cs : List Term} {p q : List Nat} {i n : Nat}

/-- The node below `t` that the numbers lead to. -/
def at? : Term → List Nat → Option Term
  | t, [] => some t
  | t, i :: p => match t.children[i]? with
    | some c => c.at? p
    | none => none

/-- The node at a position. -/
def nodeAt? (ts : List Term) : List Nat → Option Term
  | [] => none
  | i :: p => ts[i]?.bind fun t => t.at? p

/-- Whether the term is a node of one of the terms. -/
def IsNode (ts : List Term) (t : Term) : Prop := ∃ p, nodeAt? ts p = some t

/-- The position in the longer list, after one more term at the front. -/
def shift : List Nat → List Nat
  | [] => []
  | i :: p => (i + 1) :: p

/-! ### Nodes -/

theorem at?_cons : t.at? (i :: p) = nodeAt? t.children (i :: p) := by
  rw [at?, nodeAt?]
  cases t.children[i]? <;> rfl

theorem at?_append : t.at? (p ++ q) = (t.at? p).bind fun c => c.at? q := by
  induction p generalizing t with
  | nil => rfl
  | cons i p ih =>
    rw [List.cons_append, at?, at?]
    cases t.children[i]? with
    | none => rfl
    | some c => exact ih

theorem nodeAt?_append (hp : p ≠ []) : nodeAt? ts (p ++ q) = (nodeAt? ts p).bind fun t => t.at? q := by
  obtain ⟨i, p, rfl⟩ := List.exists_cons_of_ne_nil hp
  rw [List.cons_append, nodeAt?, nodeAt?, Option.bind_assoc]
  exact congrArg _ (funext fun _ => at?_append)

theorem nodeAt?_top (ts : List Term) (i : Nat) : nodeAt? ts [i] = ts[i]? := by
  rw [nodeAt?]
  cases ts[i]? <;> rfl

theorem ne_nil_of_nodeAt? (h : nodeAt? ts p = some t) : p ≠ [] := by
  rintro rfl
  cases h

theorem nodeAt?_shift (t : Term) (ts : List Term) (p : List Nat) :
    nodeAt? (t :: ts) (shift p) = nodeAt? ts p := by
  cases p <;> rfl

/-- A node of a list is in its first term or in the others. -/
theorem nodeAt?_cons (h : nodeAt? (t :: ts) p = some c) :
    (∃ q, p = 0 :: q ∧ nodeAt? [t] (0 :: q) = some c) ∨ ∃ q, p = shift q ∧ nodeAt? ts q = some c := by
  match p, h with
  | 0 :: q, h => exact .inl ⟨q, rfl, h⟩
  | (i + 1) :: q, h => exact .inr ⟨i :: q, rfl, h⟩

theorem nodeAt?_children (hp : p ≠ []) : nodeAt? [t] (0 :: p) = nodeAt? t.children p := by
  obtain ⟨i, p, rfl⟩ := List.exists_cons_of_ne_nil hp
  exact at?_cons

/-- A node of a term is the term itself or below it. -/
theorem nodeAt?_single (h : nodeAt? [t] p = some c) :
    (p = [0] ∧ c = t) ∨ ∃ q, p = 0 :: q ∧ nodeAt? t.children q = some c := by
  match p, h with
  | [0], h => exact .inl ⟨rfl, (Option.some.inj h).symm⟩
  | 0 :: i :: q, h => exact .inr ⟨i :: q, rfl, at?_cons.symm.trans h⟩

theorem isNode_of_mem (h : t ∈ ts) : IsNode ts t := by
  obtain ⟨i, hi⟩ := List.getElem?_of_mem h
  exact ⟨[i], by rw [nodeAt?, hi]; rfl⟩

theorem isNode_nil : ¬IsNode [] c := by
  rintro ⟨_ | ⟨i, p⟩, h⟩ <;> cases h

theorem isNode_cons : IsNode (t :: ts) c ↔ IsNode [t] c ∨ IsNode ts c := by
  constructor
  · rintro ⟨p, h⟩
    rcases nodeAt?_cons h with ⟨q, -, h⟩ | ⟨q, -, h⟩
    · exact .inl ⟨_, h⟩
    · exact .inr ⟨_, h⟩
  · rintro (⟨p, h⟩ | ⟨p, h⟩)
    · rcases nodeAt?_cons h with ⟨q, -, h⟩ | ⟨q, -, h⟩
      · exact ⟨0 :: q, h⟩
      · cases q <;> cases h
    · exact ⟨_, (nodeAt?_shift t ts p).trans h⟩

theorem isNode_single : IsNode [t] c ↔ c = t ∨ IsNode t.children c := by
  constructor
  · rintro ⟨p, h⟩
    rcases nodeAt?_single h with ⟨-, h⟩ | ⟨q, -, h⟩
    · exact .inl h
    · exact .inr ⟨_, h⟩
  · rintro (rfl | ⟨p, h⟩)
    · exact ⟨[0], rfl⟩
    · exact ⟨_, (nodeAt?_children (ne_nil_of_nodeAt? h)).trans h⟩

theorem isNode_cons_iff : IsNode (t :: ts) c ↔ c = t ∨ IsNode t.children c ∨ IsNode ts c := by
  rw [isNode_cons, isNode_single, or_assoc]

theorem isNode_iff : IsNode ts c ↔ ∃ t ∈ ts, IsNode [t] c := by
  induction ts with
  | nil => exact ⟨fun h => absurd h isNode_nil, fun ⟨_, h, _⟩ => absurd h List.not_mem_nil⟩
  | cons t ts ih => rw [isNode_cons, ih, List.exists_mem_cons_iff]

theorem IsNode.trans (h : IsNode ts t) (h' : IsNode [t] c) : IsNode ts c := by
  obtain ⟨p, hp⟩ := h
  obtain ⟨q, hq⟩ := h'
  rcases q with _ | ⟨_ | i, q⟩
  · cases hq
  · refine ⟨p ++ q, ?_⟩
    rw [nodeAt?_append (ne_nil_of_nodeAt? hp), hp]
    exact hq
  · cases hq

theorem mem_nodes_iff : c ∈ t.nodes ↔ IsNode [t] c := by
  induction t using Term.induction with
  | h t ih =>
    rw [nodes_eq, List.mem_cons, List.mem_flatMap, isNode_single, isNode_iff]
    exact or_congr_right (exists_congr fun d => and_congr_right fun hd => ih d hd)

theorem isNode_iff_mem_nodes : IsNode ts c ↔ ∃ t ∈ ts, c ∈ t.nodes := by
  rw [isNode_iff]
  exact exists_congr fun t => and_congr_right fun _ => mem_nodes_iff.symm

theorem mem_subterms_of_isNode (h : IsNode ts t) : t ∈ ts.flatMap subterms := by
  obtain ⟨u, hu, h⟩ := isNode_iff_mem_nodes.mp h
  exact List.mem_flatMap.mpr ⟨u, hu, u.nodes_subset_subterms h⟩

/-- No node is below itself. -/
theorem not_isNode_children (t : Term) : ¬IsNode t.children t := by
  induction t using Term.induction with
  | h t ih =>
    intro h
    obtain ⟨c, hc, h⟩ := isNode_iff.mp h
    -- then the child is below itself as well
    rcases isNode_single.mp h with rfl | h
    · exact ih t hc (isNode_of_mem hc)
    · exact ih c hc (h.trans (isNode_single.mpr (.inr (isNode_of_mem hc))))

theorem touchesEditable_iff : t.touchesEditable ↔ ∃ c, IsNode [t] c ∧ c.isEditable := by
  induction t using Term.induction with
  | h t ih =>
    rw [touchesEditable_eq, Bool.or_eq_true, List.any_eq_true]
    constructor
    · rintro (h | ⟨c, hc, h⟩)
      · exact ⟨t, isNode_single.mpr (.inl rfl), h⟩
      · obtain ⟨d, hd, h⟩ := (ih c hc).mp h
        exact ⟨d, isNode_single.mpr (.inr (isNode_iff.mpr ⟨c, hc, hd⟩)), h⟩
    · rintro ⟨d, hd, h⟩
      rcases isNode_single.mp hd with rfl | hd
      · exact .inl h
      · obtain ⟨c, hc, hd⟩ := isNode_iff.mp hd
        exact .inr ⟨c, hc, (ih c hc).mpr ⟨d, hd, h⟩⟩

theorem isEditable_of_untouched (h : t.touchesEditable = false) {c : Term} (hc : IsNode [t] c) :
    c.isEditable = false := by
  by_contra hedit
  exact Bool.false_ne_true (h ▸ touchesEditable_iff.mpr ⟨c, hc, by simpa using hedit⟩)

/-! ### The order of positions -/

theorem shift_lt_shift : shift p < shift q ↔ p < q := by
  cases p <;> cases q <;> simp [shift, List.cons_lt_cons_iff]

theorem cons_lt_shift (hq : q ≠ []) : 0 :: p < shift q := by
  obtain ⟨i, q, rfl⟩ := List.exists_cons_of_ne_nil hq
  rw [shift, List.cons_lt_cons_iff]
  exact .inl (Nat.succ_pos i)

theorem shift_append (hp : p ≠ []) : shift (p ++ q) = shift p ++ q := by
  obtain ⟨i, p, rfl⟩ := List.exists_cons_of_ne_nil hp
  rfl

/-! ### Sharing -/

/-- Terms may share nodes: those that are not canonical are told apart by their numbers, which are below
`n`. -/
structure IsHeap (n : Nat) (ts : List Term) : Prop where
  /-- Canonical nodes are shared by everybody, so they are never editable. -/
  frozen {t : Term} (ht : IsNode ts t) (hc : t.isCanonical) : t.isEditable = false
  id_lt {t : Term} (ht : IsNode ts t) (hc : t.isCanonical = false) : t.mark.id < n
  eq_of_id {t u : Term} (ht : IsNode ts t) (hu : IsNode ts u) (hc : t.isCanonical = false)
    (hc' : u.isCanonical = false) (h : t.mark.id = u.mark.id) : t = u

namespace IsHeap

/-- Nodes that are told apart by their numbers are a heap. -/
theorem of_nodes {l : List Term} (h : ∀ {t}, IsNode ts t → t ∈ l)
    (hfrozen : ∀ t ∈ l, t.isCanonical → t.isEditable = false)
    (hid : ∀ t ∈ l, t.isCanonical = false → t.mark.id < n)
    (hnodup : ((l.filter fun t => !t.isCanonical).map fun t => t.mark.id).Nodup) : IsHeap n ts where
  frozen ht := hfrozen _ (h ht)
  id_lt ht := hid _ (h ht)
  eq_of_id ht hu hc hc' hid := List.inj_on_of_nodup_map hnodup
    (List.mem_filter.mpr ⟨h ht, by rw [hc]; rfl⟩) (List.mem_filter.mpr ⟨h hu, by rw [hc']; rfl⟩) hid

theorem mono (h : IsHeap n ts) (hsub : ∀ {t}, IsNode us t → IsNode ts t) : IsHeap n us where
  frozen ht := h.frozen (hsub ht)
  id_lt ht := h.id_lt (hsub ht)
  eq_of_id ht hu := h.eq_of_id (hsub ht) (hsub hu)

theorem of_le {m : Nat} (h : IsHeap n ts) (hnm : n ≤ m) : IsHeap m ts :=
  ⟨h.frozen, fun ht hc => Nat.lt_of_lt_of_le (h.id_lt ht hc) hnm, h.eq_of_id⟩

theorem head (h : IsHeap n (t :: ts)) : IsHeap n [t] := h.mono fun ht => isNode_cons.mpr (.inl ht)

theorem tail (h : IsHeap n (t :: ts)) : IsHeap n ts := h.mono fun ht => isNode_cons.mpr (.inr ht)

theorem children (h : IsHeap n [t]) : IsHeap n t.children := h.mono fun ht => isNode_single.mpr (.inr ht)

theorem isCanonical (h : IsHeap n ts) (ht : IsNode ts t) (hedit : t.isEditable) : t.isCanonical = false := by
  by_contra hc
  rw [h.frozen ht (by simpa using hc)] at hedit
  cases hedit

end IsHeap

end RuleCompiler.Term
