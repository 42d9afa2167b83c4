import RuleCompiler.Proofs.Builder.Stages

/-! # What builders keep

A property of terms may depend on the number of the next node alone, as long as it stays true when more
nodes are made. What builders keep from stage to stage then holds of everything they build, by the number
that the next node has afterwards. -/

namespace RuleCompiler

open Build (From Leads)

/-- From the number `n` on, `P` is kept by builders; `Q` is what it says of frames. -/
structure Kept (n : Nat) (P : Nat → Term → Prop) (Q : Var → Prop) : Prop where
  mono : ∀ {k m : Nat} {t : Term}, k ≤ m → P k t → P m t
  part : ∀ {k : Nat} {t c : Term}, P k t → t.node.isCollection → c ∈ t.children → P k c
  frame : ∀ {k : Nat} {t : Term} {v : Var}, P k t → v ∈ t.frames → Q v
  var : ∀ {k : Nat} {t : Term} {v : Var}, P k t → t.node = .var v → Q v
  newVar : ∀ {k : Nat} {v : Var}, n ≤ k → Q v → From k P (Term.var v)
  new : ∀ {k : Nat} {m : Node Term}, n ≤ k → m.isBuilt → (∀ c ∈ m.children, P k c) →
    (∀ v ∈ m.frames, Q v) → From k P (Term.new m)

/-- A new node leads on by one number at most. -/
theorem Build.Leads.of_new {k : Nat} {P : Nat → Term → Prop} {m : Node Term} (h : From k P (Term.new m)) :
    Leads k P (Term.new m) := by
  unfold Term.new at h ⊢
  by_cases hm : m.isCanonical
  · rw [if_pos hm] at h ⊢
    exact .pure h.of_pure
  · rw [if_neg hm] at h ⊢
    refine ⟨k + 1, Nat.le_succ k, rfl, fun t ht => ?_⟩
    cases ht
    exact (h _ _ rfl).2

variable {n k : Nat} {P : Nat → Term → Prop} {Q : Var → Prop}

namespace Kept

theorem all_mono (h : Kept n P Q) {m : Nat} {ts : List Term} (hm : k ≤ m) (hts : ∀ t ∈ ts, P k t) :
    ∀ t ∈ ts, P m t :=
  fun t ht => h.mono hm (hts t ht)

theorem keeps (h : Kept n P Q) : Keeps n P Q where
  mono := h.mono
  part := h.part
  frame := h.frame
  var := h.var
  newVar hk hv := .of_new (h.newVar hk hv)
  new hk hm hc hf := .of_new (h.new hk hm hc hf)

end Kept

/-! ### Builders -/

theorem Term.kept_sequence (h : Kept n P Q) (hk : n ≤ k) {ts : List Term} (hts : ∀ t ∈ ts, P k t) :
    From k P (Term.sequence ts) :=
  (leads_sequence h.keeps hk hts).from_next

theorem Term.kept_sequenceFrom (h : Kept n P Q) (hk : n ≤ k) {ts : List Term} {frame : Option Var}
    (hts : ∀ t ∈ ts, P k t) (hframe : ∀ v ∈ frame, Q v) : From k P (Term.sequenceFrom ts frame) :=
  (leads_sequenceFrom h.keeps hk hts hframe).from_next

namespace ListParts
variable {p : ListParts} {t : Term}

theorem kept_concat (h : Kept n P Q) (hk : n ≤ k) (hp : p.Holds (P k)) (ht : P k t) :
    From k (fun k => Holds (P k)) (p.concat t) :=
  (leads_concat h.keeps hk hp ht).from_next

theorem kept_build (h : Kept n P Q) (hk : n ≤ k) (hp : p.Holds (P k)) : From k P p.build :=
  (leads_build h.keeps hk hp).from_next

end ListParts

namespace MapParts
variable {p : MapParts}

theorem holds_concatAll (h : Kept n P Q) {ts : List Term} (hp : p.Holds (P k))
    (hts : ∀ t ∈ ts, P k t) :
    (ts.foldl concat p).Holds (P k) :=
  keeps_concatAll h.keeps hp hts

theorem kept_build (h : Kept n P Q) (hk : n ≤ k) (hp : p.Holds (P k)) : From k P p.build :=
  (leads_build h.keeps hk hp).from_next

end MapParts

namespace SetParts
variable {p : SetParts} {t : Term}

theorem holds_concat (h : Kept n P Q) (hp : p.Holds (P k)) (ht : P k t) :
    (p.concat t).Holds (P k) :=
  keeps_concat h.keeps hp ht

theorem holds_concatAll (h : Kept n P Q) {ts : List Term} (hp : p.Holds (P k))
    (hts : ∀ t ∈ ts, P k t) :
    (ts.foldl concat p).Holds (P k) :=
  keeps_concatAll h.keeps hp hts

theorem kept_build (h : Kept n P Q) (hk : n ≤ k) (hp : p.Holds (P k)) : From k P p.build :=
  (leads_build h.keeps hk hp).from_next

end SetParts

namespace CellParts
variable {p : CellParts} {t : Term}

theorem holds_of_node (h : Kept n P Q) {cs : List Cell} {frames : List Var}
    (hn : t.node = .cells cs frames) (ht : P k t) : Holds (P k) Q ⟨cs, frames⟩ :=
  parts_of_node h.keeps hn ht

theorem kept_concat (h : Kept n P Q) (hp : p.Holds (P k) Q) (ht : P k t) :
    From k (fun k => Holds (P k) Q) (p.concat t) :=
  (leads_concat h.keeps hp ht).from_next

theorem kept_build (h : Kept n P Q) (hk : n ≤ k) (hp : p.Holds (P k) Q) : From k P p.build :=
  (leads_build h.keeps hk hp).from_next

end CellParts

namespace Term
variable {t : Term}

/-- A node that is made again from children with the property has it. -/
theorem kept_rebuild (h : Kept n P Q) (hk : n ≤ k) {cs fs : List Term} (hcs : ∀ c ∈ cs, P k c)
    (hfs : ∀ f ∈ fs, P k f) (hself : t.node.isLeaf ∨ cs.length ≠ t.children.length → P k t)
    (hchoice : t.node.isChoice → From k P (t.rebuild cs fs)) : From k P (t.rebuild cs fs) := by
  by_cases hc : t.node.isChoice
  · exact hchoice hc
  · exact (leads_rebuild h.keeps hk hcs hfs hself fun h => absurd h hc).from_next

/-! ### Numbers -/

/-- Run from anywhere, the computation leaves the number of the next node where it is or raises it. -/
abbrev Grows {α : Type} (x : Build α) : Prop := ∀ k, From k (fun _ _ => True) x

theorem grows_new (m : Node Term) : Grows (new m) := by
  unfold new
  refine fun k => .ite (fun _ => .pure trivial) fun _ t k' hrun => ?_
  cases hrun
  exact ⟨Nat.le_succ k, trivial⟩

/-- Whatever is built, numbers only grow. -/
theorem kept_true (n : Nat) : Kept n (fun _ _ => True) fun _ => True where
  mono _ _ := trivial
  part _ _ _ := trivial
  frame _ _ := trivial
  var _ _ := trivial
  newVar _ _ := grows_new _ _
  new _ _ _ _ := grows_new _ _

theorem grows_rebuild (t : Term) (cs fs : List Term) : Grows (t.rebuild cs fs) := by
  refine fun k => kept_rebuild (kept_true 0) (Nat.zero_le k) (fun _ _ => trivial) (fun _ _ => trivial)
    (fun _ => trivial) fun hn => ?_
  unfold rebuild
  split <;> first | exact grows_new _ _ | exact .pure trivial | simp_all [Node.isChoice]

theorem grows_update {t : Term} {below : List (Build Term)} {frame : Term → Build Term}
    (hbelow : ∀ x ∈ below, Grows x) (hframe : ∀ u, Grows (frame u)) :
    Grows (t.update below frame) := by
  intro k
  unfold update
  have hnext : Grows Build.nextId := by
    intro k a k' hrun
    cases hrun
    exact ⟨Nat.le_refl k, trivial⟩
  refine (hnext k).bind fun k start _ _ => ?_
  refine From.bind (From.mapM_all (fun _ h => h) fun x hx m _ => hbelow x hx m) fun k cs _ _ => ?_
  have hframes : From k (fun _ fs => ∀ f ∈ fs, True) (t.frames.mapM fun v => do
      let node ← liftM (var v)
      return (node, ← frame node)) := by
    refine .mapM_all (fun _ h => h) fun v _ m _ => ?_
    have hvar : From m (fun _ _ => True) (liftM (var v) : Build Term) := grows_new (.var v) m
    exact hvar.bind fun m u _ _ => (hframe u m).bind fun _ _ _ _ => .pure trivial
  refine hframes.bind fun k fs _ _ => .ite (fun _ => .pure trivial) fun _ => ?_
  exact From.bind (grows_rebuild t _ _ k) fun _ _ _ _ => .pure trivial

theorem grows_replaceDown {visit : Term → Build (Option Term)} (hvisit : ∀ t, Grows (visit t))
    (t : Term) : Grows (replaceDown visit t) := by
  induction t using Term.induction with
  | h t ih =>
    intro k
    rw [replaceDown, fold_eq, ← replaceDown]
    refine (hvisit t k).bind fun k o _ _ => ?_
    cases o with
    | some u => exact .pure trivial
    | none =>
      refine grows_update (fun x hx => ?_) (fun u k => ?_) k
      · obtain ⟨c, hc, rfl⟩ := List.mem_map.mp hx
        exact ih c hc
      · exact (hvisit u k).bind fun _ _ _ _ => .pure trivial

theorem grows_substitute (value : Var → Option Term) (t : Term) : Grows (t.substitute value) :=
  grows_replaceDown (fun _ _ => .pure trivial) t

end Term

end RuleCompiler
