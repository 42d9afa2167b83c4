import RuleCompiler.Proofs.Coupling.Walk
import RuleCompiler.Proofs.Sharing.Positions

/-! # Runs that begin to number later

A run that begins with a later number gives the same terms, with later numbers for the nodes that it makes. The
nodes that there were before stay the nodes they are. -/

namespace RuleCompiler

/-- The mark with a later number, unless the number is below `start`. -/
def Mark.renumber (start width : Nat) (m : Mark) : Mark := { m with id := if m.id < start then m.id else m.id + width }

theorem Mark.renumber_id_inj {start width : Nat} {m m' : Mark} :
    (m.renumber start width).id = (m'.renumber start width).id ↔ m.id = m'.id := by
  unfold renumber
  dsimp only
  split <;> split <;> omega

theorem Mark.le_renumber_id {start width n : Nat} {m : Mark} (hn : start ≤ n) :
    n + width ≤ (m.renumber start width).id ↔ n ≤ m.id := by
  unfold renumber
  dsimp only
  split <;> omega

namespace Term

/-- The term with later numbers for all nodes that are numbered from `start` on. -/
inductive Renumbered (start width : Nat) : Term → Term → Prop where
  | intro (t u : Term) (hnode : Node.Alike (fun _ _ => True) t.node u.node)
      (hmark : u.mark = if t.isCanonical then t.mark else t.mark.renumber start width)
      (hchildren : ∀ p ∈ t.children.zip u.children, Renumbered start width p.1 p.2) : Renumbered start width t u

namespace Renumbered
variable {start width : Nat} {t u t' u' : Term}

theorem mark (h : Renumbered start width t u) :
    u.mark = if t.isCanonical then t.mark else t.mark.renumber start width := by
  cases h with
  | intro _ _ _ hmark _ => exact hmark

theorem alike (h : Renumbered start width t u) : Node.Alike (Renumbered start width) t.node u.node := by
  cases h with
  | intro _ _ hnode _ hchildren => exact hnode.of_children (PairedLists.of_zip hnode.children.length_eq hchildren)

theorem of_alike (h : Node.Alike (Renumbered start width) t.node u.node)
    (hmark : u.mark = if t.isCanonical then t.mark else t.mark.renumber start width) : Renumbered start width t u :=
  .intro t u (h.imp fun _ _ _ => trivial) hmark fun _ hp => (List.forall₂_iff_zip.mp h.children).2 hp

theorem beq (h : Renumbered start width t u) : t == u := by
  induction t using Term.induction generalizing u with
  | h t ih =>
    refine beq_of_alike ((h.alike.imp fun _ _ _ => trivial).of_children ?_)
    exact PairedLists.imp_mem h.alike.children fun c hc _ _ hcd => ih c hc hcd

theorem isCanonical_eq (h : Renumbered start width t u) : u.isCanonical = t.isCanonical := h.alike.isCanonical_eq

theorem same_eq (h : Renumbered start width t u) (h' : Renumbered start width t' u') : t.same t' = u.same u' := by
  have hmark := h.mark
  have hmark' := h'.mark
  unfold same
  rw [h.isCanonical_eq, h'.isCanonical_eq, beq_congr h.beq h'.beq]
  cases hc : t.isCanonical with
  | true => rfl
  | false =>
    cases hc' : t'.isCanonical with
    | true => rfl
    | false =>
      rw [hc, if_neg Bool.false_ne_true] at hmark
      rw [hc', if_neg Bool.false_ne_true] at hmark'
      rw [hmark, hmark']
      have hid : (t.mark.id == t'.mark.id) =
          ((t.mark.renumber start width).id == (t'.mark.renumber start width).id) := by
        rw [Bool.eq_iff_iff, beq_iff_eq, beq_iff_eq, Mark.renumber_id_inj]
      rw [hid]

theorem isEditable_eq (h : Renumbered start width t u) : t.isEditable = u.isEditable := by
  rw [isEditable, isEditable, h.mark]
  split <;> rfl

theorem makeEditable {n : Nat} (hn : start ≤ n) (h : Renumbered start width t u) :
    Renumbered start width (t.makeEditable n) (u.makeEditable (n + width)) := by
  have hmark := h.mark
  cases hc : t.isCanonical with
  | true =>
    rw [Term.makeEditable, Term.makeEditable, h.isCanonical_eq, hc]
    exact h
  | false =>
    rw [hc, if_neg Bool.false_ne_true] at hmark
    have hle : n + width ≤ u.mark.id ↔ n ≤ t.mark.id := by rw [hmark, Mark.le_renumber_id hn]
    have heditable (b : Bool) : Renumbered start width (t.withEditable b) (u.withEditable b) := by
      refine of_alike h.alike ?_
      have hcanonical : (t.withEditable b).isCanonical = false := hc
      rw [hcanonical, if_neg Bool.false_ne_true]
      show { u.mark with isEditable := b } = _
      rw [hmark]
      rfl
    rw [Term.makeEditable, Term.makeEditable, h.isCanonical_eq, hc]
    by_cases hnew : n ≤ t.mark.id
    · rw [if_pos (by simpa using hnew), if_pos (by simpa using hle.mpr hnew)]
      exact heditable true
    · rw [if_neg (by simpa using hnew), if_neg (by simpa using mt hle.mp hnew)]
      exact h

/-- Terms whose nodes have all been there before stay the terms they are. -/
theorem eq_of_ids (h : Renumbered start width t u) (ht : ∀ c ∈ t.nodes, c.isCanonical = false → c.mark.id < start) :
    t = u := by
  induction t using Term.induction generalizing u with
  | h t ih =>
    have hchildren : List.Forall₂ Eq t.children u.children := PairedLists.imp_mem h.alike.children fun c hc _ _ hcd =>
      ih c hc hcd fun d hd => ht d (nodes_child hc hd)
    have hnode := ((h.alike.imp fun _ _ _ => trivial).of_children hchildren).eq
    have hmark : u.mark = t.mark := by
      rw [h.mark]
      split
      · rfl
      · rename_i hc
        rw [Mark.renumber, if_pos (ht t t.self_mem_nodes (by simpa using hc))]
    obtain ⟨m, node⟩ := t
    obtain ⟨m', node'⟩ := u
    dsimp only at hnode hmark
    rw [hnode, hmark]

theorem refl (ht : ∀ c ∈ t.nodes, c.isCanonical = false → c.mark.id < start) : Renumbered start width t t := by
  induction t using Term.induction with
  | h t ih =>
    have hchildren : List.Forall₂ (Renumbered start width) t.children t.children :=
      List.forall₂_same.mpr fun c hc => ih c hc fun d hd => ht d (nodes_child hc hd)
    refine of_alike ((alike_of_beq BEq.rfl).imp (fun _ _ _ => trivial) |>.of_children hchildren) ?_
    split
    · rfl
    · rename_i hc
      rw [Mark.renumber, if_pos (ht t t.self_mem_nodes (by simpa using hc))]

theorem canonical {m m' : Node Term} (hm : m.isCanonical) (h : Node.Alike (Renumbered start width) m m') :
    Renumbered start width (Term.canonical m) (Term.canonical m') :=
  of_alike h (if_pos hm).symm

theorem made {n : Nat} {m m' : Node Term} (hn : start ≤ n) (hm : m.isCanonical = false)
    (h : Node.Alike (Renumbered start width) m m') :
    Renumbered start width ⟨{ id := n }, m⟩ ⟨{ id := n + width }, m'⟩ := by
  refine of_alike h ?_
  have hcanonical : Term.isCanonical ⟨{ id := n }, m⟩ = false := hm
  rw [hcanonical, if_neg Bool.false_ne_true, Mark.renumber, if_neg (Nat.not_lt.mpr hn)]

end Renumbered

end Term

open Term (Renumbered)

/-- The second run begins to number nodes `width` later than the first, which begins at `start`. -/
def Coupling.renumbered (start width : Nat) (allowance : Allowance) : Coupling :=
  .ofRel start width allowance (fun _ => Renumbered start width) (fun _ h => h) Renumbered.beq Renumbered.alike
    Renumbered.canonical Renumbered.made Renumbered.same_eq Renumbered.isEditable_eq Renumbered.makeEditable

end RuleCompiler
