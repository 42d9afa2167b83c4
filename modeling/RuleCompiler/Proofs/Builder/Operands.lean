import RuleCompiler.Proofs.Builder.Entries

/-! # Lists of any operands

A list of a user operator is known by its operands, whether they are known yet or not. Lists that are put
together put together their operands, one after the other, and give back the list of all of them. -/

namespace RuleCompiler

open Build (Always)
open Term (Equal)

namespace ListParts
variable {ops : CollectionOps} {p q : ListParts} {t u : Term} {w w' : List Term}

/-- The parts after one more operand that is neither a list nor the unit. -/
def pushed (p : ListParts) (t : Term) : ListParts :=
  if p.isUnresolved t then { p with base := p.base ++ closed p.ops p.right ++ [t], right := [] }
  else p.addItem t

/-- The parts of a list of these operands. -/
def ofOperands (ops : CollectionOps) (w : List Term) : ListParts := w.foldl pushed { ops }

/-- The operands of the parts. -/
def operands (p : ListParts) : List Term := p.left ++ (p.base.flatMap (Term.itemsOf p.ops) ++ p.right)

/-- What `build` makes of the parts of a user operator, in nodes without numbers. -/
def whole (p : ListParts) : Term :=
  match p.left, p.base, p.right with
  | [], [t], [] => t
  | [], [], _ => p.ops.unitTerm
  | [t], [], _ => t
  | left, base, right => .canonical (.list p.ops left base right)

/-! ### Operands as entries -/

theorem pushed_eq (p : ListParts) (t : Term) : p.pushed t = p.push (entryOf p.ops t) := by
  rw [pushed, entryOf, isUnresolved_ops]
  split <;> rfl

theorem foldl_pushed (w : List Term) : ∀ p : ListParts, w.foldl pushed p = (w.map (entryOf p.ops)).foldl push p := by
  induction w with
  | nil => exact fun _ => rfl
  | cons t w ih =>
    intro p
    rw [List.foldl_cons, ih, List.map_cons, List.foldl_cons, pushed_eq, push_ops]

theorem ofOperands_eq (ops : CollectionOps) (w : List Term) :
    ofOperands ops w = ofEntries ops (w.map (entryOf ops)) :=
  foldl_pushed w _

theorem foldl_pushed_ops (w : List Term) (p : ListParts) : (w.foldl pushed p).ops = p.ops := by
  rw [foldl_pushed, foldl_push_ops]

theorem ofOperands_ops (ops : CollectionOps) (w : List Term) : (ofOperands ops w).ops = ops :=
  foldl_pushed_ops w _

theorem ofOperands_concat (ops : CollectionOps) (w : List Term) (t : Term) :
    ofOperands ops (w ++ [t]) = (ofOperands ops w).pushed t := by
  rw [ofOperands, List.foldl_append, List.foldl_cons, List.foldl_nil, ofOperands]

theorem areFit_operands (h : ∀ t ∈ w, isPart ops t) : AreFit ops (w.map (entryOf ops)) :=
  areFit_of_forall (List.forall_mem_map.mpr fun t ht => fits_entryOf (h t ht))

theorem isOpen_ofOperands (h : ∀ t ∈ w, isPart ops t) : (ofOperands ops w).IsOpen := by
  rw [ofOperands_eq]
  exact isOpen_ofEntries (areFit_operands h).kept

theorem itemsOf_of_isPart (h : isPart ops t) : t.itemsOf ops = [t] := by
  rw [isPart, Bool.and_eq_true, Bool.not_eq_true', Bool.not_eq_true'] at h
  rw [Term.itemsOf_of_operand h.1, h.2]
  rfl

theorem flatMap_itemsOf_closed (ops : CollectionOps) (w : List Term) :
    (closed ops w).flatMap (Term.itemsOf ops) = w := by
  unfold closed
  split
  · rename_i h
    exact (List.isEmpty_iff.mp h).symm
  · rw [List.flatMap_singleton]
    exact Term.itemsOf_of_list rfl

theorem operands_pushed (h : p.IsOpen) (ht : isPart p.ops t) : (p.pushed t).operands = p.operands ++ [t] := by
  unfold ListParts.pushed operands
  split
  · simp only [List.flatMap_append, flatMap_itemsOf_closed, List.flatMap_singleton, itemsOf_of_isPart ht,
      List.append_nil, List.append_assoc]
  · unfold addItem
    split
    · rename_i hbase
      have hbase := List.isEmpty_iff.mp hbase
      simp [hbase, h.right hbase]
    · simp only [List.append_assoc]

theorem operands_ofOperands (h : ∀ t ∈ w, isPart ops t) : (ofOperands ops w).operands = w := by
  induction w using List.reverseRecOn with
  | nil => rfl
  | append_singleton w t ih =>
    rw [List.forall_mem_append, List.forall_mem_singleton] at h
    have ht := (ofOperands_ops ops w).symm ▸ h.2
    rw [ofOperands_concat, operands_pushed (isOpen_ofOperands h.1) ht, ih h.1]

theorem ofOperands_congr (h : Equal w w') : (ofOperands ops w).Alike (ofOperands ops w') := by
  rw [ofOperands_eq, ofOperands_eq]
  refine ofEntries_congr (List.forall₂_map_left_iff.mpr (List.forall₂_map_right_iff.mpr ?_))
  exact h.imp fun _ _ h => entryOf_congr h

/-- A lone item of a user operator stands for itself, and the unit for no operands. -/
theorem whole_eq (hop : p.ops.isOperator) : p.whole = p.built := by
  obtain ⟨ops, left, base, right⟩ := p
  dsimp only at hop
  rcases left with _ | ⟨_, _ | _⟩ <;> rcases base with _ | ⟨_, _ | _⟩ <;> rcases right with _ | _ <;>
    simp [whole, built, hop]

theorem whole_congr (h : p.Alike q) : p.whole == q.whole := by
  obtain ⟨ops, left, base, right⟩ := p
  obtain ⟨ops', left', base', right'⟩ := q
  obtain ⟨hops, hl, hb, hr⟩ := h
  dsimp only at hops hl hb hr
  subst hops
  have hlist : (Term.canonical (.list ops left base right)) == .canonical (.list ops left' base' right') :=
    Term.beq_of_alike (.list hl hb hr)
  rcases hl with _ | ⟨h, _ | _⟩ <;> rcases hb with _ | ⟨h', _ | _⟩ <;> rcases hr with _ | _ <;>
    first
    | exact hlist
    | exact h
    | exact h'
    | exact BEq.refl _

end ListParts

namespace Term
variable {ops : CollectionOps} {t u : Term} {w w' : List Term}

/-- The operands of the term as a part of a list of `ops`. -/
def operands (ops : CollectionOps) (t : Term) : List Term :=
  match t.node with
  | .list ops' left base right => if ops' = ops then ListParts.operands { ops, left, base, right } else [t]
  | _ => if ops.isUnit t then [] else [t]

/-- Whether the term, if it is a list of `ops`, has the parts of a list of its operands. -/
def HasOperands (ops : CollectionOps) (t : Term) : Prop :=
  ∀ left base right, t.node = .list ops left base right →
    ∃ w, (∀ d ∈ w, ListParts.isPart ops d) ∧ { ops, left, base, right } = ListParts.ofOperands ops w

/-- The list of some operands. -/
def listOf (ops : CollectionOps) (w : List Term) : Term := (ListParts.ofOperands ops w).whole

theorem operands_of_list {left base right : List Term} (hn : t.node = .list ops left base right) :
    t.operands ops = ListParts.operands { ops, left, base, right } := by
  rw [operands, hn]
  exact if_pos rfl

theorem operands_of_not_list (h : t.isListOf ops = false) :
    t.operands ops = if ops.isUnit t then [] else [t] := by
  rw [operands]
  split
  · rename_i hn
    rw [isListOf, hn, decide_eq_false_iff_not] at h
    rw [if_neg h, CollectionOps.isUnit, hn]
    rfl
  · rfl

/-- The operands of a term are none that a list would open up. -/
theorem HasOperands.isPart_operands (h : t.HasOperands ops) :
    ∀ d ∈ t.operands ops, ListParts.isPart ops d := by
  cases hlist : t.isListOf ops with
  | true =>
    obtain ⟨left, base, right, hn⟩ := node_of_isListOf hlist
    obtain ⟨w, hw, hparts⟩ := h left base right hn
    rw [operands_of_list hn, hparts, ListParts.operands_ofOperands hw]
    exact hw
  | false =>
    rw [operands_of_not_list hlist]
    split
    · exact List.forall_mem_nil _
    · rename_i hunit
      refine List.forall_mem_singleton.mpr ?_
      rw [ListParts.isPart, hlist, Bool.eq_false_iff.mpr hunit]
      rfl

theorem operands_congr (h : t == u) : Equal (t.operands ops) (u.operands ops) := by
  have hself : Equal [t] [u] := .cons h .nil
  have hunit : Equal (if ops.isUnit t then [] else [t]) (if ops.isUnit u then [] else [u]) := by
    rw [CollectionOps.isUnit_congr h]
    split
    · exact .nil
    · exact hself
  have halike := alike_of_beq h
  rw [operands, operands]
  generalize t.node = m, u.node = n at halike
  cases halike with
  | list hl hb hr =>
    dsimp only
    split
    · exact Equal.append hl (Equal.append (List.rel_flatMap hb fun _ _ h => ListParts.itemsOf_congr h) hr)
    · exact hself
  | _ => exact hunit

theorem HasOperands.hasEntries (h : t.HasOperands ops) : t.HasEntries ops := by
  intro left base right hn
  obtain ⟨w, hw, hparts⟩ := h left base right hn
  exact ⟨w.map (ListParts.entryOf ops), ListParts.areFit_operands hw, hparts ▸ ListParts.ofOperands_eq ops w ▸ .refl _⟩

theorem HasOperands.entries_eq (h : t.HasOperands ops) :
    t.entries ops = (t.operands ops).map (ListParts.entryOf ops) := by
  cases hlist : t.isListOf ops with
  | true =>
    obtain ⟨left, base, right, hn⟩ := node_of_isListOf hlist
    obtain ⟨w, hw, hparts⟩ := h left base right hn
    rw [entries_of_list hn, operands_of_list hn, hparts, ListParts.operands_ofOperands hw, ListParts.ofOperands_eq,
      ListParts.entries_ofEntries (ListParts.areFit_operands hw).kept]
  | false =>
    rw [entries_of_not_list hlist, operands_of_not_list hlist]
    split <;> rfl

end Term

namespace ListParts
variable {ops : CollectionOps} {p q : ListParts} {t u : Term} {w w' : List Term}

/-- A list adds its operands, the unit none, and anything else itself. -/
theorem always_concat (h : p.Alike q) (ht : t == u) (hu : u.HasOperands q.ops) :
    Always (p.concat t) fun r => r.Alike ((u.operands q.ops).foldl pushed q) := by
  rw [foldl_pushed, ← hu.entries_eq]
  exact always_concat_entries h ht hu.hasEntries

theorem always_concatAll_operands {ts us : List Term} (hts : Equal ts us) : ∀ {p q : ListParts}, p.Alike q →
    (∀ u ∈ us, u.HasOperands q.ops) →
      Always (ts.foldlM concat p) fun r => r.Alike ((us.flatMap (Term.operands q.ops)).foldl pushed q) := by
  induction hts with
  | nil => exact fun h _ => .pure h
  | @cons t u ts us ht hts ih =>
    intro p q h hus
    obtain ⟨hu, hus⟩ := List.forall_mem_cons.mp hus
    rw [List.foldlM_cons, List.flatMap_cons, List.foldl_append]
    refine (always_concat h ht hu).bind fun r hr => ?_
    have hops := foldl_pushed_ops (u.operands q.ops) q
    have hrest := ih hr (hops.symm ▸ hus)
    rwa [hops] at hrest

theorem always_build_whole (hop : q.ops.isOperator) (h : p.Alike q) : Always p.build (· == q.whole) := by
  rw [whole_eq hop]
  exact always_build_built h

end ListParts

namespace Term
variable {ops : CollectionOps} {t u : Term} {w w' : List Term}

theorem listOf_congr (h : Equal w w') : listOf ops w == listOf ops w' :=
  ListParts.whole_congr (ListParts.ofOperands_congr h)

theorem listOf_singleton (ops : CollectionOps) (t : Term) : listOf ops [t] = t := by
  rw [listOf, ListParts.ofOperands, List.foldl_cons, List.foldl_nil, ListParts.pushed]
  split <;> rfl

/-- A list of several operands is a node of its own. -/
theorem listOf_cases (h : ∀ d ∈ w, ListParts.isPart ops d) :
    w = [] ∧ listOf ops w = ops.unitTerm ∨ (∃ t, w = [t] ∧ listOf ops w = t) ∨
      ∃ left base right, { ops, left, base, right } = ListParts.ofOperands ops w ∧
        listOf ops w = canonical (.list ops left base right) := by
  have hoperands := ListParts.operands_ofOperands h
  have hopen := ListParts.isOpen_ofOperands h
  have hops := ListParts.ofOperands_ops ops w
  rw [listOf]
  generalize ListParts.ofOperands ops w = q at hoperands hopen hops
  obtain ⟨ops', left, base, right⟩ := q
  cases hops
  unfold ListParts.whole
  split
  · rename_i t hl hb hr
    cases hl
    cases hb
    cases hr
    refine .inr (.inl ⟨t, ?_, rfl⟩)
    rw [← hoperands, ListParts.operands, List.nil_append, List.append_nil, List.flatMap_singleton]
    exact ListParts.itemsOf_of_isPart (hopen.base t rfl)
  · rename_i hl hb
    cases hl
    cases hb
    cases hopen.right rfl
    exact .inl ⟨hoperands.symm, rfl⟩
  · rename_i t hl hb
    cases hl
    cases hb
    cases hopen.right rfl
    exact .inr (.inl ⟨t, hoperands.symm, rfl⟩)
  · exact .inr (.inr ⟨left, base, right, rfl, rfl⟩)

theorem operands_of_isPart (h : ListParts.isPart ops t) : t.operands ops = [t] := by
  rw [ListParts.isPart, Bool.and_eq_true, Bool.not_eq_true', Bool.not_eq_true'] at h
  rw [operands_of_not_list h.1, h.2]
  rfl

theorem flatMap_operands_of_isPart (h : ∀ t ∈ w, ListParts.isPart ops t) : w.flatMap (operands ops) = w := by
  rw [List.flatMap_congr fun t ht => operands_of_isPart (h t ht), List.flatMap_singleton']

theorem flatMap_itemsOf_of_isPart (h : ∀ t ∈ w, ListParts.isPart ops t) : w.flatMap (itemsOf ops) = w := by
  rw [List.flatMap_congr fun t ht => ListParts.itemsOf_of_isPart (h t ht), List.flatMap_singleton']

/-- The list of some operands has these operands. -/
theorem operands_listOf (h : ∀ d ∈ w, ListParts.isPart ops d) : (listOf ops w).operands ops = w := by
  rcases listOf_cases h with ⟨rfl, hlist⟩ | ⟨t, rfl, hlist⟩ | ⟨left, base, right, hparts, hlist⟩
  · rw [hlist, operands_of_not_list rfl, if_pos (isUnit_unitTerm ops)]
  · rw [hlist]
    exact operands_of_isPart (h t List.mem_cons_self)
  · rw [hlist, operands_of_list rfl, hparts]
    exact ListParts.operands_ofOperands h

theorem hasOperands_listOf (h : ∀ d ∈ w, ListParts.isPart ops d) : (listOf ops w).HasOperands ops := by
  intro left base right hn
  refine ⟨w, h, ?_⟩
  rcases listOf_cases h with ⟨-, heq⟩ | ⟨t, rfl, heq⟩ | ⟨left', base', right', hparts, heq⟩
  · rw [heq] at hn
    cases hn
  · have ht := h t List.mem_cons_self
    rw [heq] at hn
    have hlist : t.isListOf ops := by
      rw [isListOf, hn]
      exact decide_eq_true rfl
    rw [ListParts.isPart, hlist] at ht
    cases ht
  · rw [heq] at hn
    cases hn
    exact hparts

theorem always_listOf {ts us : List Term} (hop : ops.isOperator) (h : Equal ts us)
    (hus : ∀ u ∈ us, u.HasOperands ops) :
    Always (do (← ts.foldlM ListParts.concat { ops }).build)
      (· == listOf ops (us.flatMap (operands ops))) := by
  refine (ListParts.always_concatAll_operands h (.refl { ops }) hus).bind fun p hp => ?_
  exact ListParts.always_build_whole ((ListParts.ofOperands_ops ops _).symm ▸ hop) hp

end Term

end RuleCompiler
