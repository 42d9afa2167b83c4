import RuleCompiler.Operators
import RuleCompiler.Proofs.Builder.Operands
import RuleCompiler.Proofs.Builder.Sequence
import RuleCompiler.Proofs.Matching.Reads

/-! # Flat terms

What flattening makes of a term that is built from variables, tokens, applications and sequences, in nodes
without numbers. Below an associative application stand the operands of its list, and below a sequence
its items; neither are opened up any further. -/

namespace RuleCompiler

open Term (Equal)

/-- The unit that an associative label declares is not associative, and its constant has the sort of the
label. -/
def LabelTable.UnitsFit (labels : LabelTable) (sorts : String → SortName) : Prop :=
  ∀ l u, labels.isAssociative l → labels.unit? l = some u → labels.isAssociative u = false ∧ sorts u = sorts l

/-- The unit that an associative label declares is not associative, and it fits in where the label does. -/
def LabelTable.UnitsKeep (labels : LabelTable) (P : String → SortName → Prop) : Prop :=
  ∀ l u s, labels.isAssociative l → labels.unit? l = some u → P l s → labels.isAssociative u = false ∧ P u s

theorem LabelTable.UnitsFit.keep {labels : LabelTable} {sorts : String → SortName} (h : labels.UnitsFit sorts) :
    labels.UnitsKeep fun l s => s = sorts l :=
  fun l u _ hl hu hs => (h l u hl hu).imp_right fun hsort => hs.trans hsort.symm

namespace Term
variable {labels : LabelTable} {sorts : String → SortName} {P : String → SortName → Prop} {ops : CollectionOps}
  {t u : Term} {w : List Term}

/-- The node with other children, as builders make it. -/
def refilled (t : Term) (below : List Term) : Term :=
  match t.node, below with
  | .app (.const l) _ s, args => canonical (.app (.const l) args s)
  | .app (.freezer _) _ s, frozen :: args => canonical (.app (.freezer frozen) args s)
  | .seq _ frame, items =>
    sequenceOf (items.flatMap sequenceItems ++ frame.toList.map fun v => canonical (.var v))
  | _, _ => t

/-- The list that an application of an associative label stands for. -/
def flatNode (labels : LabelTable) (t : Term) : Term :=
  match t.node with
  | .app (.const l) args s =>
    match labels.operator? l s with
    | some ops => listOf ops (args.flatMap (operands ops))
    | none => t
  | _ => t

/-- The flattened term. -/
def flat (labels : LabelTable) : Term → Term := fold fun t below => flatNode labels (t.refilled below)

/-- Whether the node is a variable, a token, an application of a label of its sort, or a sequence as builders
leave it. -/
def isSyntaxNode (sorts : String → SortName) (t : Term) : Bool :=
  match t.node with
  | .app (.const l) _ s => s = sorts l
  | .app (.freezer _) .. => true
  | .seq items frame => SequenceParts.isProper ⟨items, frame⟩
  | n => n.isLeaf

/-- Terms built from variables, tokens, applications and sequences. -/
def IsSyntax (sorts : String → SortName) (t : Term) : Prop := t.everyNode (isSyntaxNode sorts)

instance (sorts : String → SortName) (t : Term) : Decidable (t.IsSyntax sorts) :=
  inferInstanceAs (Decidable (_ = true))

/-- A flattened term, in which labels are applied at sorts that fit. -/
inductive IsFlat (labels : LabelTable) (P : String → SortName → Prop) : Term → Prop where
  | leaf {t : Term} (h : t.node.isLeaf) : IsFlat labels P t
  | frozen {t f : Term} {args : List Term} {s : SortName} (hn : t.node = .app (.freezer f) args s)
      (hf : IsFlat labels P f) (hargs : ∀ a ∈ args, IsFlat labels P a) : IsFlat labels P t
  /-- Of the associative labels only those are left that stand for their own unit. -/
  | app {t : Term} {l : String} {args : List Term} {s : SortName} (hn : t.node = .app (.const l) args s)
      (hs : P l s) (hl : labels.isAssociative l → args = [] ∧ labels.unit? l = none)
      (hargs : ∀ a ∈ args, IsFlat labels P a) : IsFlat labels P t
  | seq {w : List Term} (hplain : ∀ d ∈ w, SequenceParts.isPlain d) (hw : ∀ d ∈ w, IsFlat labels P d)
      (h : SequenceParts.isPlain (sequenceOf w) = false) : IsFlat labels P (sequenceOf w)
  | list {l : String} {s : SortName} {ops : CollectionOps} {w : List Term}
      (hops : labels.operator? l s = some ops) (hpart : ∀ d ∈ w, ListParts.isPart ops d)
      (hw : ∀ d ∈ w, IsFlat labels P d) (h : (listOf ops w).isListOf ops) : IsFlat labels P (listOf ops w)

/-! ### Operators -/

theorem operator?_eq {l : String} {s : SortName} (hl : labels.isAssociative l) :
    labels.operator? l s = some ⟨s, l, (labels.unit? l).getD l, none⟩ := if_pos hl

theorem operator?_cases {l : String} {s : SortName} (hops : labels.operator? l s = some ops) :
    labels.isAssociative l ∧ ops = ⟨s, l, (labels.unit? l).getD l, none⟩ := by
  unfold LabelTable.operator? at hops
  split at hops
  · exact ⟨‹_›, (Option.some.inj hops).symm⟩
  · cases hops

/-- The constant of a unit is flat. -/
theorem isFlat_unitTerm (hunits : labels.UnitsKeep P) {l : String} {s : SortName} (hs : P l s)
    (hops : labels.operator? l s = some ops) : IsFlat labels P ops.unitTerm ∧ P ops.unit ops.sort := by
  obtain ⟨hl, rfl⟩ := operator?_cases hops
  cases hunit : labels.unit? l with
  | none => exact ⟨.app rfl hs (fun _ => ⟨rfl, hunit⟩) (List.forall_mem_nil _), hs⟩
  | some u =>
    obtain ⟨hu, hs⟩ := hunits l u s hl hunit hs
    refine ⟨.app rfl hs (fun h => ?_) (List.forall_mem_nil _), hs⟩
    rw [Option.getD_some, hu] at h
    cases h

/-! ### Flat sequences and lists -/

theorem isFlat_listOf (hunits : labels.UnitsKeep P) {l : String} {s : SortName} (hs : P l s)
    (hops : labels.operator? l s = some ops) (hpart : ∀ d ∈ w, ListParts.isPart ops d)
    (hw : ∀ d ∈ w, IsFlat labels P d) : IsFlat labels P (listOf ops w) := by
  have hlist := IsFlat.list hops hpart hw
  rcases listOf_cases hpart with ⟨-, heq⟩ | ⟨t, rfl, heq⟩ | ⟨left, base, right, -, heq⟩
  · rw [heq]
    exact (isFlat_unitTerm hunits hs hops).1
  · rw [heq]
    exact hw t List.mem_cons_self
  · refine hlist ?_
    rw [heq]
    exact decide_eq_true rfl

theorem isFlat_sequenceOf (hplain : ∀ d ∈ w, SequenceParts.isPlain d) (hw : ∀ d ∈ w, IsFlat labels P d) :
    IsFlat labels P (sequenceOf w) := by
  rcases sequenceOf_cases w with ⟨v, heq⟩ | ⟨t, rfl, heq⟩ | ⟨items, frame, heq⟩
  · rw [heq]
    exact .leaf rfl
  · rw [heq]
    exact hw t List.mem_cons_self
  · refine .seq hplain hw ?_
    rw [heq]
    rfl

namespace IsFlat

/-- A flat list has flat operands. -/
theorem exists_operands (h : IsFlat labels P t) (hlist : t.isListOf ops) :
    ∃ w, (∀ d ∈ w, ListParts.isPart ops d) ∧ (∀ d ∈ w, IsFlat labels P d) ∧ t = listOf ops w := by
  obtain ⟨left, base, right, hn⟩ := node_of_isListOf hlist
  cases h with
  | leaf h => simp [hn, Node.isLeaf] at h
  | frozen hn' => cases hn.symm.trans hn'
  | app hn' => cases hn.symm.trans hn'
  | @seq w _ _ h =>
    obtain ⟨items, frame, hn'⟩ := SequenceParts.node_of_not_isPlain h
    cases hn.symm.trans hn'
  | @list _ _ ops' w _ hpart hw h =>
    obtain ⟨left', base', right', hn'⟩ := node_of_isListOf h
    cases hn.symm.trans hn'
    exact ⟨w, hpart, hw, rfl⟩

/-- A flat sequence has flat items. -/
theorem exists_items (h : IsFlat labels P t) (hseq : SequenceParts.isPlain t = false) :
    ∃ w, (∀ d ∈ w, SequenceParts.isPlain d) ∧ (∀ d ∈ w, IsFlat labels P d) ∧ t = sequenceOf w := by
  obtain ⟨items, frame, hn⟩ := SequenceParts.node_of_not_isPlain hseq
  cases h with
  | leaf h => simp [hn, Node.isLeaf] at h
  | frozen hn' => cases hn.symm.trans hn'
  | app hn' => cases hn.symm.trans hn'
  | @seq w hplain hw _ => exact ⟨w, hplain, hw, rfl⟩
  | @list _ _ _ _ _ _ _ h =>
    obtain ⟨left, base, right, hn'⟩ := node_of_isListOf h
    cases hn.symm.trans hn'

theorem hasOperands (h : IsFlat labels P t) (ops : CollectionOps) : t.HasOperands ops := by
  intro left base right hn
  have hlist : t.isListOf ops := by
    rw [isListOf, hn]
    exact decide_eq_true rfl
  obtain ⟨w, hpart, -, rfl⟩ := h.exists_operands hlist
  exact hasOperands_listOf hpart left base right hn

theorem hasProperItems (h : IsFlat labels P t) : t.HasProperItems := by
  cases hplain : SequenceParts.isPlain t with
  | true => exact hasProperItems_of_isPlain hplain
  | false =>
    obtain ⟨w, hitems, -, rfl⟩ := h.exists_items hplain
    exact hasProperItems_sequenceOf hitems

theorem operands (h : IsFlat labels P t) (ops : CollectionOps) :
    ∀ d ∈ t.operands ops, IsFlat labels P d := by
  cases hlist : t.isListOf ops with
  | true =>
    obtain ⟨w, hpart, hw, rfl⟩ := h.exists_operands hlist
    rwa [operands_listOf hpart]
  | false =>
    rw [operands_of_not_list hlist]
    split
    · exact List.forall_mem_nil _
    · exact List.forall_mem_singleton.mpr h

theorem sequenceItems (h : IsFlat labels P t) : ∀ d ∈ t.sequenceItems, IsFlat labels P d := by
  cases hplain : SequenceParts.isPlain t with
  | true =>
    rw [SequenceParts.sequenceItems_of_isPlain hplain]
    exact List.forall_mem_singleton.mpr h
  | false =>
    obtain ⟨w, hitems, hw, rfl⟩ := h.exists_items hplain
    intro d hd
    rcases mem_sequenceItems_sequenceOf hitems hd with hd | ⟨v, rfl⟩
    · exact hw d hd
    · exact .leaf rfl

theorem of_app (h : IsFlat labels P t) {l : String} {args : List Term} {s : SortName}
    (hn : t.node = .app (.const l) args s) :
    P l s ∧ (labels.isAssociative l → args = [] ∧ labels.unit? l = none) := by
  cases h with
  | leaf h => simp [hn, Node.isLeaf] at h
  | frozen hn' => cases hn.symm.trans hn'
  | app hn' hs hl =>
    cases hn.symm.trans hn'
    exact ⟨hs, hl⟩
  | seq _ _ h =>
    obtain ⟨items, frame, hn'⟩ := SequenceParts.node_of_not_isPlain h
    cases hn.symm.trans hn'
  | list _ _ _ h =>
    obtain ⟨left, base, right, hn'⟩ := node_of_isListOf h
    cases hn.symm.trans hn'

/-- A flat constant that stands for the unit of an operator is its unit. -/
theorem beq_unitTerm (hunits : labels.UnitsFit sorts) (h : IsFlat labels (fun l s => s = sorts l) t)
    {l : String} (hops : labels.operator? l (sorts l) = some ops) (hunit : ops.isUnit t) :
    ops.unitTerm == t := by
  obtain ⟨s, hn⟩ : ∃ s, t.node = .app (.const ops.unit) [] s := by
    unfold CollectionOps.isUnit at hunit
    split at hunit
    · rename_i hn
      exact ⟨_, eq_of_beq hunit ▸ hn⟩
    · cases hunit
  refine beq_of_node_eq (.trans ?_ hn.symm)
  show Node.app _ _ ops.sort = _
  rw [(isFlat_unitTerm hunits.keep rfl hops).2, (h.of_app hn).1]

/-- A flat term is the list of its operands. -/
theorem beq_listOf (hunits : labels.UnitsFit sorts) (h : IsFlat labels (fun l s => s = sorts l) t)
    {l : String} (hops : labels.operator? l (sorts l) = some ops) : listOf ops (t.operands ops) == t := by
  cases hlist : t.isListOf ops with
  | true =>
    obtain ⟨w, hpart, hw, rfl⟩ := h.exists_operands hlist
    rw [operands_listOf hpart]
    exact BEq.refl _
  | false =>
    rw [operands_of_not_list hlist]
    split
    · exact h.beq_unitTerm hunits hops ‹_›
    · rw [listOf_singleton]
      exact BEq.refl t

/-- A flat node stays as it is. -/
theorem flatNode_beq (h : IsFlat labels P t) : flatNode labels t == t := by
  unfold flatNode
  split
  · rename_i l args s hn
    have hl := (h.of_app hn).2
    split
    · rename_i ops hops
      obtain ⟨hassoc, rfl⟩ := operator?_cases hops
      obtain ⟨rfl, hunit⟩ := hl hassoc
      refine beq_of_node_eq (.trans ?_ hn.symm)
      rw [hunit]
      rfl
    · exact BEq.refl t
  · exact BEq.refl t

end IsFlat

theorem isFlat_flatNode (hunits : labels.UnitsKeep P) (h : IsFlat labels P t) :
    IsFlat labels P (flatNode labels t) := by
  unfold flatNode
  split
  · rename_i l args s hn
    obtain ⟨hs, hl⟩ := h.of_app hn
    split
    · rename_i ops hops
      obtain ⟨rfl, -⟩ := hl (operator?_cases hops).1
      exact (isFlat_unitTerm hunits hs hops).1
    · exact h
  · exact h

/-! ### Syntax -/

namespace IsSyntax

theorem cases (h : t.IsSyntax sorts) : t.node.isLeaf ∨ (∃ l args, t.node = .app (.const l) args (sorts l)) ∨
    (∃ f args s, t.node = .app (.freezer f) args s) ∨
      ∃ items frame, t.node = .seq items frame ∧ SequenceParts.isProper ⟨items, frame⟩ := by
  have hnode := (everyNode_iff.mp h).1
  unfold isSyntaxNode at hnode
  split at hnode
  · rename_i l args s hn
    exact .inr (.inl ⟨l, args, of_decide_eq_true hnode ▸ hn⟩)
  · exact .inr (.inr (.inl ⟨_, _, _, ‹_›⟩))
  · exact .inr (.inr (.inr ⟨_, _, ‹_›, hnode⟩))
  · exact .inl hnode

theorem child {c : Term} (h : t.IsSyntax sorts) (hc : c ∈ t.children) : c.IsSyntax sorts :=
  (everyNode_iff.mp h).2.1 c hc

theorem sort_eq (h : t.IsSyntax sorts) {l : String} {args : List Term} {s : SortName}
    (hn : t.node = .app (.const l) args s) : s = sorts l := by
  have hnode := (everyNode_iff.mp h).1
  rw [isSyntaxNode, hn] at hnode
  exact of_decide_eq_true hnode

theorem hasProperItems (h : t.IsSyntax sorts) : t.HasProperItems := by
  intro items frame hn
  have hnode := (everyNode_iff.mp h).1
  rwa [isSyntaxNode, hn] at hnode

theorem sequenceItems (h : t.IsSyntax sorts) : ∀ d ∈ t.sequenceItems, d.IsSyntax sorts := by
  cases hplain : SequenceParts.isPlain t with
  | true =>
    rw [SequenceParts.sequenceItems_of_isPlain hplain]
    exact List.forall_mem_singleton.mpr h
  | false =>
    obtain ⟨items, frame, hn⟩ := SequenceParts.node_of_not_isPlain hplain
    rw [Term.sequenceItems, hn]
    refine List.forall_mem_append.mpr ⟨fun d hd => h.child ?_, fun d hd => ?_⟩
    · rwa [children, hn]
    · obtain ⟨v, -, rfl⟩ := List.mem_map.mp hd
      rfl

end IsSyntax

/-! ### Flattened terms -/

/-- The items of the flattened terms. -/
def flatItems (labels : LabelTable) (w : List Term) : List Term :=
  w.flatMap fun t => (t.flat labels).sequenceItems

theorem flat_eq (labels : LabelTable) (t : Term) :
    t.flat labels = flatNode labels (t.refilled (t.children.map (flat labels))) := by
  rw [flat, fold_eq, ← flat]

theorem flatNode_of_not_app (h : ∀ l args s, t.node ≠ .app (.const l) args s) : flatNode labels t = t := by
  unfold flatNode
  split
  · exact absurd ‹_› (h _ _ _)
  · rfl

theorem refilled_of_isLeaf (h : t.node.isLeaf) (below : List Term) : t.refilled below = t := by
  unfold refilled
  cases hn : t.node <;> simp_all [Node.isLeaf]

theorem refilled_app {l : String} {args : List Term} {s : SortName} (hn : t.node = .app (.const l) args s)
    (below : List Term) : t.refilled below = canonical (.app (.const l) below s) := by
  unfold refilled
  rw [hn]

theorem refilled_frozen {f : Term} {args : List Term} {s : SortName} (hn : t.node = .app (.freezer f) args s)
    (c : Term) (below : List Term) : t.refilled (c :: below) = canonical (.app (.freezer c) below s) := by
  unfold refilled
  rw [hn]

theorem refilled_seq {items : List Term} {frame : Option Var} (hn : t.node = .seq items frame)
    (below : List Term) : t.refilled below =
      sequenceOf (below.flatMap sequenceItems ++ frame.toList.map fun v => canonical (.var v)) := by
  unfold refilled
  rw [hn]

theorem flat_of_isLeaf (h : t.node.isLeaf) : t.flat labels = t := by
  rw [flat_eq, refilled_of_isLeaf h, flatNode_of_not_app]
  intro l args s hn
  rw [hn] at h
  cases h

theorem flat_of_app {l : String} {args : List Term} {s : SortName} (hn : t.node = .app (.const l) args s) :
    t.flat labels = flatNode labels (canonical (.app (.const l) (args.map (flat labels)) s)) := by
  rw [flat_eq, refilled_app hn, children, hn]
  rfl

theorem flat_of_operator {l : String} {args : List Term} {s : SortName}
    (hn : t.node = .app (.const l) args s) (hops : labels.operator? l s = some ops) :
    t.flat labels = listOf ops (args.flatMap fun c => (c.flat labels).operands ops) := by
  rw [flat_of_app hn]
  unfold flatNode
  show (match labels.operator? l s with
    | some ops => listOf ops ((args.map (flat labels)).flatMap (operands ops))
    | none => _) = _
  rw [hops]
  show listOf ops ((args.map (flat labels)).flatMap (operands ops)) = _
  rw [List.flatMap_map]

theorem flat_of_constructor {l : String} {args : List Term} {s : SortName}
    (hn : t.node = .app (.const l) args s) (hl : labels.isAssociative l = false) :
    t.flat labels = canonical (.app (.const l) (args.map (flat labels)) s) := by
  have hops : labels.operator? l s = none := by rw [LabelTable.operator?, hl]; rfl
  rw [flat_of_app hn]
  unfold flatNode
  show (match labels.operator? l s with
    | some ops => listOf ops ((args.map (flat labels)).flatMap (operands ops))
    | none => _) = _
  rw [hops]

theorem flat_of_frozen {f : Term} {args : List Term} {s : SortName} (hn : t.node = .app (.freezer f) args s) :
    t.flat labels = canonical (.app (.freezer (f.flat labels)) (args.map (flat labels)) s) := by
  rw [flat_eq, children, hn, Node.children, List.map_cons, refilled_frozen hn]
  rfl

theorem refilled_flat {items : List Term} {frame : Option Var} (hn : t.node = .seq items frame) :
    t.refilled (t.children.map (flat labels)) = sequenceOf (flatItems labels t.sequenceItems) := by
  rw [refilled_seq hn, flatItems, children, sequenceItems, hn, Node.children, List.flatMap_append,
    List.flatMap_map]
  cases frame <;> rfl

theorem isPlain_flatItems (h : ∀ t ∈ w, IsFlat labels P (t.flat labels)) :
    ∀ d ∈ flatItems labels w, SequenceParts.isPlain d := by
  intro d hd
  obtain ⟨t, ht, hd⟩ := List.mem_flatMap.mp hd
  exact (h t ht).hasProperItems.isPlain_items d hd

theorem isFlat_flatItems (h : ∀ t ∈ w, IsFlat labels P (t.flat labels)) :
    IsFlat labels P (sequenceOf (flatItems labels w)) := by
  refine isFlat_sequenceOf (isPlain_flatItems h) fun d hd => ?_
  obtain ⟨t, ht, hd⟩ := List.mem_flatMap.mp hd
  exact (h t ht).sequenceItems d hd

/-- Flattened terms are flat. -/
theorem IsSyntax.isFlat (hunits : labels.UnitsKeep P) (hP : ∀ l, P l (sorts l)) (h : t.IsSyntax sorts) :
    IsFlat labels P (t.flat labels) := by
  induction t using Term.induction with
  | h t ih =>
    have ih : ∀ c ∈ t.children, IsFlat labels P (c.flat labels) := fun c hc => ih c hc (h.child hc)
    rcases h.cases with hn | ⟨l, args, hn⟩ | ⟨f, args, s, hn⟩ | ⟨items, frame, hn, -⟩
    · rw [flat_of_isLeaf hn]
      exact .leaf hn
    · have hargs : ∀ c ∈ args, IsFlat labels P (c.flat labels) := by rwa [children, hn] at ih
      cases hl : labels.isAssociative l with
      | true =>
        have hops := operator?_eq (s := sorts l) hl
        rw [flat_of_operator hn hops]
        refine isFlat_listOf hunits (hP l) hops (fun d hd => ?_) fun d hd => ?_
        · obtain ⟨c, hc, hd⟩ := List.mem_flatMap.mp hd
          exact ((hargs c hc).hasOperands _).isPart_operands d hd
        · obtain ⟨c, hc, hd⟩ := List.mem_flatMap.mp hd
          exact (hargs c hc).operands _ d hd
      | false =>
        rw [flat_of_constructor hn hl]
        refine .app rfl (hP l) (fun h => ?_) (List.forall_mem_map.mpr hargs)
        rw [hl] at h
        cases h
    · rw [children, hn] at ih
      obtain ⟨hf, hargs⟩ := List.forall_mem_cons.mp ih
      rw [flat_of_frozen hn]
      exact .frozen rfl hf (List.forall_mem_map.mpr hargs)
    · have hitems : ∀ c ∈ t.sequenceItems, IsFlat labels P (c.flat labels) := by
        rw [Term.sequenceItems, hn]
        refine List.forall_mem_append.mpr ⟨fun c hc => ?_, fun c hc => ?_⟩
        · exact ih c (by rwa [children, hn])
        · obtain ⟨v, -, rfl⟩ := List.mem_map.mp hc
          exact .leaf rfl
      rw [flat_eq, refilled_flat hn]
      exact isFlat_flatNode hunits (isFlat_flatItems hitems)

theorem isFlat_flat (hunits : labels.UnitsFit sorts) (h : t.IsSyntax sorts) :
    IsFlat labels (fun l s => s = sorts l) (t.flat labels) :=
  h.isFlat hunits.keep fun _ => rfl

/-! ### Equal terms -/

theorem refilled_congr {ts us : List Term} (h : t == u) (hts : Equal ts us) :
    t.refilled ts == u.refilled us := by
  have hself := h
  have halike := alike_of_beq h
  unfold refilled
  generalize t.node = m, u.node = n at halike
  cases halike with
  | app _ => exact beq_of_alike (.app hts)
  | freezer _ _ =>
    cases hts with
    | nil => exact hself
    | cons h hts => exact beq_of_alike (.freezer h hts)
  | seq _ =>
    refine sequenceOf_congr (Equal.append (List.rel_flatMap hts fun _ _ h => sequenceItems_congr h) (.refl _))
  | _ => exact hself

theorem flatNode_congr (h : t == u) : flatNode labels t == flatNode labels u := by
  have hself := h
  have halike := alike_of_beq h
  unfold flatNode
  generalize t.node = m, u.node = n at halike
  cases halike with
  | app hargs =>
    dsimp only
    split
    · exact listOf_congr (List.rel_flatMap hargs fun _ _ h => operands_congr h)
    · exact hself
  | _ => exact hself

theorem flat_congr (h : t == u) : t.flat labels == u.flat labels := by
  induction t using Term.induction generalizing u with
  | h t ih =>
    rw [flat_eq, flat_eq]
    refine flatNode_congr (refilled_congr h ?_)
    exact List.forall₂_map_left_iff.mpr (List.forall₂_map_right_iff.mpr
      (PairedLists.imp_mem (children_congr h) fun c hc _ _ hcd => ih c hc hcd))

/-! ### Sequences of flattened terms -/

theorem flatItems_congr {w w' : List Term} (h : Equal w w') :
    Equal (flatItems labels w) (flatItems labels w') :=
  List.rel_flatMap h fun _ _ h => sequenceItems_congr (flat_congr h)

section Sequences
variable (hunits : labels.UnitsFit sorts)
include hunits

/-- A term is flattened item by item. -/
theorem flat_beq_sequenceOf (h : t.IsSyntax sorts) :
    t.flat labels == sequenceOf (flatItems labels t.sequenceItems) := by
  cases hplain : SequenceParts.isPlain t with
  | true =>
    rw [SequenceParts.sequenceItems_of_isPlain hplain, flatItems, List.flatMap_singleton]
    exact (isFlat_flat hunits h).hasProperItems.beq_sequenceOf
  | false =>
    obtain ⟨items, frame, hn⟩ := SequenceParts.node_of_not_isPlain hplain
    rw [flat_eq, refilled_flat hn]
    exact (isFlat_flatItems fun c hc => isFlat_flat hunits (h.sequenceItems c hc)).flatNode_beq

theorem equal_flatItems (h : t.IsSyntax sorts) :
    Equal (flatItems labels t.sequenceItems) (t.flat labels).sequenceItems := by
  refine ((sequenceItems_congr (flat_beq_sequenceOf hunits h)).trans (equal_sequenceItems ?_)).symm
  exact isPlain_flatItems fun c hc => isFlat_flat hunits (h.sequenceItems c hc)

/-- Terms put together to a sequence are flattened one by one. -/
theorem flat_sequence {ts : List Term} (h : t.IsSyntax sorts) (hts : ∀ c ∈ ts, c.IsSyntax sorts)
    (ht : t == sequenceOf (ts.flatMap sequenceItems)) :
    t.flat labels == sequenceOf (flatItems labels ts) := by
  have hitems : Equal t.sequenceItems (ts.flatMap sequenceItems) := by
    refine (sequenceItems_congr ht).trans (equal_sequenceItems fun d hd => ?_)
    obtain ⟨c, hc, hd⟩ := List.mem_flatMap.mp hd
    exact (hts c hc).hasProperItems.isPlain_items d hd
  have hflat : Equal (flatItems labels (ts.flatMap sequenceItems)) (flatItems labels ts) := by
    rw [flatItems, List.flatMap_assoc]
    refine List.rel_flatMap (R := fun c d => c ∈ ts ∧ c = d) (List.forall₂_same.mpr fun c hc => ⟨hc, rfl⟩) ?_
    rintro c _ ⟨hc, rfl⟩
    exact equal_flatItems hunits (hts c hc)
  refine BEq.trans (flat_beq_sequenceOf hunits h) (sequenceOf_congr ?_)
  exact (flatItems_congr hitems).trans hflat

end Sequences

end Term

end RuleCompiler
