import RuleCompiler.Proofs.Builder.Kept

/-! # Tidy terms

Builders put cells in the order of their labels and never wrap a single item into a sequence. A
term all of whose nodes are so is tidy. Partial evaluation is followed on left sides only, so
`Tidy rights` leaves out what stands to the right of a rewrite unless `rights` says otherwise.
Everything that walks over a tidy term and rebuilds it gives tidy terms again. -/

namespace RuleCompiler

/-- Cells stand by label, and a sequence is no single item. -/
def Node.isTidy {α : Type} : Node α → Bool
  | .cells cs _ => cs.Pairwise fun a b => (compare a.label b.label).isLE
  | .seq [_] none => false
  | _ => true

namespace Term

/-- The children of a node, of a rewrite the right one only with `rights`. -/
def sides (rights : Bool) (t : Term) : List Term :=
  match t.node with
  | .rewrite l r => if rights then [l, r] else [l]
  | _ => t.children

/-- Whether every node is tidy, those right of a rewrite only with `rights`. -/
def isTidy (rights : Bool) : Term → Bool :=
  fold fun t below => t.node.isTidy && match t.node, below with
    | .rewrite .., [l, r] => l && (!rights || r)
    | _, below => below.all id

abbrev Tidy (rights : Bool) (t : Term) : Prop := t.isTidy rights = true

variable {b : Bool}

theorem tidy_iff {t : Term} : Tidy b t ↔ t.node.isTidy ∧ ∀ c ∈ t.sides b, Tidy b c := by
  rw [Tidy, isTidy, fold_eq, ← isTidy, Bool.and_eq_true, sides, children]
  refine and_congr_right fun _ => ?_
  cases hn : t.node with
  | rewrite l r => cases b <;> simp [Node.children, Tidy]
  | _ => simp [Tidy]

theorem sides_subset {t c : Term} (h : c ∈ t.sides b) : c ∈ t.children := by
  unfold sides at h
  split at h
  · rename_i l r hn
    rw [children, hn]
    cases b <;> simp_all [Node.children]
  · exact h

theorem sides_of_not_rewrite {t : Term} (h : t.isRewrite = false) : t.sides b = t.children := by
  unfold sides
  split
  · simp_all [isRewrite]
  · rfl

theorem sides_true (t : Term) : t.sides true = t.children := by
  unfold sides
  split
  · simp_all [children, Node.children]
  · rfl

theorem tidy_child {t c : Term} (h : Tidy b t) (hc : c ∈ t.sides b) : Tidy b c := by
  rw [tidy_iff] at h
  exact h.2 c hc

theorem tidy_of_sides {t : Term} (ht : t.node.isTidy) (hc : ∀ c ∈ t.sides b, Tidy b c) : Tidy b t := by
  rw [tidy_iff]
  exact ⟨ht, hc⟩

theorem sides_congr {t u : Term} (h : t.node = u.node) : t.sides b = u.sides b := by
  rw [sides, sides, children, children, h]

/-- Marks do not matter. -/
theorem tidy_congr {t u : Term} (h : t.node = u.node) : Tidy b t ↔ Tidy b u := by
  rw [tidy_iff, tidy_iff, h, sides_congr h]

/-- A term that is tidy throughout is tidy on its left sides. -/
theorem Tidy.left {t : Term} (h : Tidy true t) : Tidy false t := by
  induction t using Term.induction with
  | h t ih =>
    rw [tidy_iff, sides_true] at h
    exact tidy_of_sides h.1 fun c hc => ih c (sides_subset hc) (h.2 c (sides_subset hc))

theorem tidy_var (b : Bool) (m : Mark) (v : Var) : Tidy b ⟨m, .var v⟩ := by
  refine tidy_of_sides rfl fun c hc => ?_
  simp [sides, children, Node.children] at hc

/-! ### New nodes -/

section Nodes
variable {n : Node Term}

theorem returns_new (n : Node Term) : Returns (fun t => t.node = n) (new n) := by
  rw [new]
  exact .ite (fun _ => .pure rfl) fun _ => .bind' fun _ => .pure rfl

theorem returns_var (v : Var) : Returns (fun t => t.node = .var v) (var v) := returns_new _

theorem tidy_new (h : Tidy b ⟨{}, n⟩) : Returns (Tidy b) (new n) :=
  (returns_new n).mono fun _ ht => (tidy_congr ht).mpr h

theorem tidy_newVar (b : Bool) (v : Var) : Returns (Tidy b) (var v) := tidy_new (tidy_var b {} v)

theorem tidy_newApp {label : Label} {args : List Term} {s : SortName}
    (h : ∀ c ∈ (Node.app label args s).children, Tidy b c) : Returns (Tidy b) (app label args s) :=
  tidy_new (tidy_of_sides rfl h)

theorem tidy_newRewrite {l r : Term} (hl : Tidy b l) (hr : b = true → Tidy b r) :
    Returns (Tidy b) (rewrite l r) := by
  refine tidy_new (tidy_of_sides rfl fun c hc => ?_)
  cases b with
  | false =>
    rw [List.mem_singleton.mp hc]
    exact hl
  | true =>
    rcases List.mem_pair.mp hc with rfl | rfl
    · exact hl
    · exact hr rfl

end Nodes

end Term

theorem Node.isTidy_of_isBuilt {α : Type} {n : Node α} (h : n.isBuilt) : n.isTidy := by
  unfold Node.isBuilt at h
  unfold Node.isTidy
  split <;> simp_all

/-- Builders keep terms tidy. -/
theorem Term.tidy_kept (b : Bool) {n : Nat} : Kept n (fun _ => Tidy b) fun _ => True where
  mono _ ht := ht
  part ht hn hc := by
    refine tidy_child ht ?_
    rwa [sides_of_not_rewrite]
    unfold isRewrite
    split
    · simp_all [Node.isCollection]
    · rfl
  frame _ _ := trivial
  var _ _ := trivial
  newVar _ _ := .of_returns (tidy_newVar b _) (grows_new _ _)
  new _ hm hc _ := by
    refine .of_returns (tidy_new (tidy_of_sides (Node.isTidy_of_isBuilt hm) fun c h => ?_)) (grows_new _ _)
    exact hc c (sides_subset h)

end RuleCompiler
