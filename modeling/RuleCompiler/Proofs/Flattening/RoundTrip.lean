import RuleCompiler.Proofs.Flattening.Again
import RuleCompiler.Proofs.Flattening.Equations

/-! # Nesting flat terms

Unflattening nests the operands of a list under its operator. It makes the list again before it nests it, so the
runs of known items that have become single terms stand as lists below the applications. Flattening finds the
operands in them, and it gives the flat term back. -/

namespace RuleCompiler

open Build (Always Gives)
open Term (Equal IsSyntax)
open ListParts (AreKnown Covers HoldsOfRuns isPart run)

namespace Term
variable {labels : LabelTable} {ops : CollectionOps} {F t u U : Term} {ts us w : List Term}

/-! ### Nested operands -/

/-- Operands under a binary operator, nested to the right, in nodes without numbers. -/
def nested (ops : CollectionOps) : List Term → Term
  | [] => ops.unitTerm
  | [t] => t
  | t :: u :: ts => canonical (.app (.const ops.concat) [t, nested ops (u :: ts)] ops.sort)

theorem always_nestRight (h : Equal ts us) : Always (nestRight ops ts) (· == nested ops us) := by
  induction h with
  | nil => exact .pure (BEq.refl _)
  | @cons t u ts us htu htus ih =>
    cases htus with
    | nil => exact .pure htu
    | cons h htus =>
      refine ih.bind fun v hv => (always_new _).mono fun r hr => beq_of_alike ?_
      rw [hr]
      exact .app (.cons htu (.cons hv .nil))

theorem nested_congr (h : Equal ts us) : nested ops ts == nested ops us := by
  induction h with
  | nil => exact BEq.refl _
  | cons htu htus ih =>
    cases htus with
    | nil => exact htu
    | cons h htus => exact beq_of_alike (.app (.cons htu (.cons ih .nil)))

/-- What one list of a user operator stands for. Other terms stay. -/
def unflatNode (t : Term) : Term :=
  match t.node with
  | .list ops left base right => if ops.isOperator then nested ops (left ++ (base ++ right)) else t
  | _ => t

theorem unflatNode_of_not_list (h : ∀ ops, t.isListOf ops = false) : unflatNode t = t := by
  unfold unflatNode
  split
  · rename_i ops _ _ _ hn
    have hlist := h ops
    rw [isListOf, hn, decide_eq_false_iff_not] at hlist
    exact absurd rfl hlist
  · rfl

theorem always_unflattenNode (h : t == u) : Always (unflattenNode t) (· == unflatNode u) := by
  have hself := h
  have halike := alike_of_beq h
  unfold unflattenNode unflatNode
  generalize t.node = m, u.node = n at halike
  cases halike with
  | list hl hb hr =>
    dsimp only
    split
    · exact always_nestRight (Equal.append hl (Equal.append hb hr))
    · exact .pure hself
  | _ => exact .pure hself

theorem unflattenNode_of_var {v : Var} (hn : t.node = .var v) : unflattenNode t = pure t := by
  unfold unflattenNode
  rw [hn]

/-- Nested operands are flattened to the list of what they have. -/
theorem supplies_nested (hops : labels.operator? ops.concat ops.sort = some ops) :
    ∀ {ts w : List Term}, ts ≠ [] → Covers (Supplies labels ops) ts w →
      Supplies labels ops (nested ops ts) w ∧ (2 ≤ ts.length → FlattensTo labels (nested ops ts) (listOf ops w))
  | [t], w, _, h => ⟨h.of_single, fun hlen => absurd hlen (by simp)⟩
  | t :: u :: ts, w, _, h => by
    obtain ⟨as, bs, has, hbs, rfl⟩ := Covers.of_append (show Covers (Supplies labels ops) ([t] ++ u :: ts) w from h)
    have hrest := (supplies_nested hops (List.cons_ne_nil u ts) hbs).1
    have hturns := turns_operator (t := nested ops (t :: u :: ts)) rfl hops (has.append (.single hrest))
    exact ⟨Turns.mono hturns fun v hv => ⟨v, BEq.refl v, hv.hasFlat⟩, fun _ => Turns.mono hturns fun v hv => hv.upTo⟩

/-! ### Terms that are flattened back -/

/-- The term is flattened to `F`, and a node that it is below does not tell it from `F`. -/
structure Undoes (labels : LabelTable) (F U : Term) : Prop where
  flattens : FlattensTo labels U F
  isPlain : SequenceParts.isPlain U = SequenceParts.isPlain F
  asVar : U.asVar? = F.asVar?
  notList : ∀ ops, U.isListOf ops = false
  isUnit : ∀ ops : CollectionOps, ops.isUnit U = ops.isUnit F

/-- The term is an operand, or in the place of a run, of a list of `ops`, and it is flattened to the known items
that it stands for. -/
structure Serves (labels : LabelTable) (ops : CollectionOps) (c U : Term) : Prop where
  part : isPart ops U
  notList : ∀ ops', U.isListOf ops' = false
  unresolved : ListParts.isUnresolved { ops } U = ListParts.isUnresolved { ops } c
  supplies : Supplies labels ops U (c.itemsOf ops)

theorem isUnresolved_of_asVar? {p : ListParts} (h : t.asVar? = u.asVar?) : p.isUnresolved t = p.isUnresolved u := by
  unfold ListParts.isUnresolved
  cases hv : u.asVar? with
  | none => rw [isVar_of_asVar? hv, isVar_of_asVar? (h.trans hv)]; rfl
  | some v =>
    have ht := node_of_asVar? (h.trans hv)
    have hu := node_of_asVar? hv
    rw [isVar, isVar, sort_eq, sort_eq u, ht, hu]

theorem Undoes.serves (h : Undoes labels F U) (hF : IsFlattened labels F) (hpart : isPart ops F) :
    Serves labels ops F U where
  part := by
    rw [isPart, Bool.and_eq_true] at hpart ⊢
    rw [h.notList, h.isUnit]
    exact ⟨rfl, hpart.2⟩
  notList := h.notList
  unresolved := isUnresolved_of_asVar? h.asVar
  supplies := by
    rw [ListParts.itemsOf_of_isPart hpart, ← operands_of_isPart hpart]
    exact h.flattens.supplies hF ops

/-! ### Ordinary nodes -/

/-- A relation between flat terms and what they are unflattened to. It holds of a node if it holds of the children,
and of a list if it holds of those children that are operands. -/
structure Follows (labels : LabelTable) (R : Term → Term → Prop) : Prop where
  undoes : ∀ {F U : Term}, R F U → Undoes labels F U
  leaf : ∀ {F : Term}, F.node.isLeaf → Undoes labels F F → R F F
  ordinary : ∀ {F U : Term} {vs : List Term}, F.IsOrdinary → U = F.refilled vs → U.children = vs →
    List.Forall₂ R F.children vs → Undoes labels F U → R F U
  list : ∀ {l : String} {s : SortName} {ops : CollectionOps} {w vs : List Term}, labels.operator? l s = some ops →
    (∀ d ∈ w, isPart ops d) → (listOf ops w).isListOf ops → 2 ≤ w.length →
    List.Forall₂ (fun c v => Serves labels ops c v ∧ (isPart ops c → R c v)) (listOf ops w).children vs →
    Undoes labels (listOf ops w) (unflatNode (listOf ops vs)) → R (listOf ops w) (unflatNode (listOf ops vs))

theorem follows_undoes (labels : LabelTable) : Follows labels (Undoes labels) :=
  ⟨id, fun _ h => h, fun _ _ _ _ h => h, fun _ _ _ _ _ h => h⟩

section Follows
variable {R : Term → Term → Prop} (hR : Follows labels R)
include hR

theorem turns_unflatten_of_children (h : F.IsOrdinary) (hc : ∀ c ∈ F.children, Turns unflatten c (R c))
    (hmade : ∀ vs, List.Forall₂ R F.children vs → R F (F.refilled vs)) : Turns unflatten F (R F) := by
  have hundo : List.Forall₂ (Turns unflatten) F.children (F.children.map R) :=
    List.forall₂_map_right_iff.mpr (List.forall₂_same.mpr hc)
  refine turns_ordinary makes_unflattenNode unflattenNode_of_var h hundo (fun hseq P hP u hu => ?_)
    fun vs hvs u hu => ?_
  · obtain ⟨c, hc, rfl⟩ := List.mem_map.mp hP
    obtain ⟨items, frame, hn⟩ := SequenceParts.node_of_not_isPlain hseq
    have hplain := (SequenceParts.isProper_iff.mp (h.hasProperItems items frame hn)).1
    rw [children, hn] at hc
    exact hasProperItems_of_isPlain ((hR.undoes hu).isPlain.trans (hplain c hc))
  · have hmade := hmade vs ((List.forall₂_map_left_iff (f := R)).mp hvs)
    refine (always_unflattenNode hu).mono fun v hv => ⟨_, hv, ?_⟩
    rwa [unflatNode_of_not_list (hR.undoes hmade).notList]

end Follows

theorem undoes_leaf (h : F.node.isLeaf) : Undoes labels F F := by
  refine ⟨flattensTo_leaf h, rfl, rfl, fun ops => ?_, fun _ => rfl⟩
  unfold isListOf
  cases hn : F.node <;> simp_all [Node.isLeaf]

theorem turns_unflatten_leaf {R : Term → Term → Prop} (hR : Follows labels R) (h : F.node.isLeaf) :
    Turns unflatten F (R F) := by
  refine turns_unflatten_of_children hR (isOrdinary_of_isLeaf h) ?_ fun vs _ => ?_
  · rw [children_of_isLeaf h]
    exact List.forall_mem_nil _
  · rw [refilled_of_isLeaf h]
    exact hR.leaf h (undoes_leaf h)

theorem forall₂_flattens {cs vs : List Term} (h : List.Forall₂ (Undoes labels) cs vs) :
    List.Forall₂ (FlattensTo labels) vs cs :=
  h.flip.imp fun _ _ hu => hu.flattens

theorem undoes_app {l : String} {args vs : List Term} {s : SortName} (hF : IsFlattened labels F)
    (hn : F.node = .app (.const l) args s) (hargs : ∀ a ∈ args, IsFlattened labels a)
    (h : List.Forall₂ (Undoes labels) args vs) : Undoes labels F (canonical (.app (.const l) vs s)) where
  flattens := flattensTo_ordinary hF (isOrdinary_of_app rfl) (forall₂_flattens h) hargs (beq_of_node_eq hn.symm)
  isPlain := by rw [SequenceParts.isPlain, SequenceParts.isPlain, hn]
  asVar := by rw [asVar?, asVar?, hn]
  notList _ := rfl
  isUnit ops := by
    rw [CollectionOps.isUnit, CollectionOps.isUnit, hn]
    cases h <;> rfl

theorem undoes_frozen {f g : Term} {args vs : List Term} {s : SortName} (hF : IsFlattened labels F)
    (hn : F.node = .app (.freezer f) args s) (hargs : ∀ a ∈ f :: args, IsFlattened labels a)
    (h : List.Forall₂ (Undoes labels) (f :: args) (g :: vs)) :
    Undoes labels F (canonical (.app (.freezer g) vs s)) where
  flattens := flattensTo_ordinary hF (isOrdinary_of_app rfl) (forall₂_flattens h) hargs (beq_of_node_eq hn.symm)
  isPlain := by rw [SequenceParts.isPlain, SequenceParts.isPlain, hn]
  asVar := by rw [asVar?, asVar?, hn]
  notList _ := rfl
  isUnit ops := by rw [CollectionOps.isUnit, CollectionOps.isUnit, hn]

theorem segment?_of_asVar? (h : t.asVar? = u.asVar?) : Matching.segment? t = Matching.segment? u := by
  rw [Matching.segment?, Matching.segment?, h]

/-- A sequence is as proper over terms in the place of its items. -/
theorem isProper_of_undoes {items vs : List Term} {frame : Option Var}
    (h : SequenceParts.isProper ⟨items, frame⟩) (hvs : List.Forall₂ (Undoes labels) items vs) :
    SequenceParts.isProper ⟨vs, frame⟩ := by
  obtain ⟨hplain, hone, hnil, hsort, hlast⟩ := SequenceParts.isProper_iff.mp h
  refine SequenceParts.isProper_iff.mpr ⟨fun v hv => ?_, fun hlen => ?_, fun hvnil => ?_, hsort, fun hframe v hv => ?_⟩
  · obtain ⟨c, hc, hcv⟩ := PairedLists.exists_mem hvs.flip hv
    exact hcv.isPlain.trans (hplain c hc)
  · exact hone (hvs.length_eq.trans hlen)
  · cases (hvnil : vs = [])
    cases hvs
    exact hnil rfl
  · rw [List.getLast?_eq_getElem?] at hv
    obtain ⟨c, hc, hcv⟩ := PairedLists.exists_getElem? hvs.flip hv
    rw [segment?_of_asVar? hcv.asVar]
    exact hlast hframe c (by rw [List.getLast?_eq_getElem?, hvs.length_eq]; exact hc)

theorem undoes_sequence {items vs : List Term} {frame : Option Var} (hF : IsFlattened labels F)
    (hn : F.node = .seq items frame) (hitems : ∀ c ∈ items, IsFlattened labels c)
    (hvs : List.Forall₂ (Undoes labels) items vs) : Undoes labels F (canonical (.seq vs frame)) where
  flattens := by
    have hproper := isProper_of_undoes (hF.hasProperItems items frame hn) hvs
    have hord : F.IsOrdinary := hF.hasProperItems.isOrdinary (by rw [SequenceParts.isPlain, hn])
    refine flattensTo_ordinary hF hproper (forall₂_flattens hvs) hitems ?_
    rw [refilled_seq rfl, ← refilled_seq hn]
    refine refilled_beq hord ?_
    rw [children, hn]
    exact .refl items
  isPlain := by rw [SequenceParts.isPlain, SequenceParts.isPlain, hn]
  asVar := by rw [asVar?, asVar?, hn]
  notList _ := rfl
  isUnit ops := by rw [CollectionOps.isUnit, CollectionOps.isUnit, hn]

theorem turns_unflatten_sequence {R : Term → Term → Prop} (hR : Follows labels R) {items : List Term}
    {frame : Option Var} (hF : IsFlattened labels F) (hn : F.node = .seq items frame)
    (hitems : ∀ c ∈ items, IsFlattened labels c) (hc : ∀ c ∈ items, Turns unflatten c (R c)) :
    Turns unflatten F (R F) := by
  have hproper := hF.hasProperItems items frame hn
  have hord : F.IsOrdinary := hF.hasProperItems.isOrdinary (by rw [SequenceParts.isPlain, hn])
  have hchildren : F.children = items := by rw [children, hn]; rfl
  refine turns_unflatten_of_children hR hord (hchildren ▸ hc) fun vs hvs => ?_
  have hundoes : List.Forall₂ (Undoes labels) items vs := hchildren ▸ hvs.imp fun _ _ hv => hR.undoes hv
  have hproper := isProper_of_undoes hproper hundoes
  have hrefilled : canonical (.seq vs frame) = F.refilled vs := by
    rw [refilled_seq hn, flatMap_sequenceItems (SequenceParts.isProper_iff.mp hproper).1,
      sequenceOf_of_isProper hproper]
  exact hrefilled ▸ hR.ordinary hord hrefilled rfl hvs (undoes_sequence hF hn hitems hundoes)

/-! ### Lists -/

theorem Serves.hasOperands {c : Term} (h : Serves labels ops c u) : u.HasOperands ops := by
  intro left base right hn
  have hlist := h.notList ops
  rw [isListOf, hn, decide_eq_false_iff_not] at hlist
  exact absurd rfl hlist

theorem isListOf_listOf (h : ∀ t ∈ ts, isPart ops t) (hlen : 2 ≤ ts.length) :
    ∃ left base right, { ops, left, base, right } = ListParts.ofOperands ops ts ∧
      listOf ops ts = canonical (.list ops left base right) := by
  rcases listOf_cases h with ⟨rfl, -⟩ | ⟨t, rfl, -⟩ | hlist
  · simp at hlen
  · simp at hlen
  · exact hlist

/-- A list of several operands has several children. -/
theorem two_le_children (h : ∀ t ∈ ts, isPart ops t) (hlen : 2 ≤ ts.length) :
    2 ≤ (ListParts.ofOperands ops ts).children.length := by
  have hoperands := ListParts.operands_ofOperands h
  have hopen := ListParts.isOpen_ofOperands h
  have hops := ListParts.ofOperands_ops ops ts
  generalize ListParts.ofOperands ops ts = p at hoperands hopen hops
  subst hoperands
  obtain ⟨ops', left, base, right⟩ := p
  cases hops
  cases base with
  | nil =>
    cases hopen.right rfl
    simpa [ListParts.operands, ListParts.children] using hlen
  | cons b base =>
    have hb := ListParts.itemsOf_of_isPart (hopen.base b rfl)
    unfold ListParts.children
    by_contra hfew
    have hnil : left = [] ∧ base = [] ∧ right = [] := by
      simp only [List.length_append, List.length_cons] at hfew
      exact ⟨List.length_eq_zero_iff.mp (by omega), List.length_eq_zero_iff.mp (by omega),
        List.length_eq_zero_iff.mp (by omega)⟩
    obtain ⟨rfl, rfl, rfl⟩ := hnil
    simp [ListParts.operands, hb] at hlen

theorem itemsOf_run (ops : CollectionOps) (xs : List Term) : (run ops xs).itemsOf ops = xs := itemsOf_of_list rfl

theorem unflatNode_run (hop : ops.isOperator) (ts : List Term) : unflatNode (run ops ts) = nested ops ts := by
  show (if ops.isOperator then nested ops (ts ++ ([] ++ [])) else _) = _
  rw [if_pos hop, List.append_nil, List.append_nil]

theorem unflatNode_listOf_known (hop : ops.isOperator) (hne : ts ≠ []) (hknown : AreKnown ops ts)
    (hlist : ∀ t ∈ ts, ∀ ops, t.isListOf ops = false) : unflatNode (listOf ops ts) = nested ops ts := by
  match ts, hne with
  | [t], _ =>
    rw [listOf_singleton]
    exact unflatNode_of_not_list (hlist t List.mem_cons_self)
  | t :: u :: ts, _ => rw [ListParts.listOf_known hknown (by simp), unflatNode_run hop]

section Serves
variable {cs vs : List Term} (h : List.Forall₂ (Serves labels ops) cs vs)
include h

theorem exists_serves {v : Term} (hv : v ∈ vs) : ∃ c ∈ cs, Serves labels ops c v :=
  PairedLists.exists_mem h.flip hv

theorem isPart_of_serves : ∀ v ∈ vs, isPart ops v := fun _ hv => (exists_serves h hv).elim fun _ hc => hc.2.part

theorem covers_of_serves : Covers (Supplies labels ops) vs (cs.flatMap (itemsOf ops)) :=
  ⟨cs.map (itemsOf ops), List.forall₂_map_right_iff.mpr (h.flip.imp fun _ _ hv => hv.supplies),
    List.flatMap_def.symm⟩

theorem areKnown_of_serves (hknown : AreKnown ops cs) : AreKnown ops vs := by
  intro v hv
  obtain ⟨c, hc, hcv⟩ := exists_serves h hv
  exact ⟨hcv.part, hcv.unresolved.trans (hknown c hc).2⟩

end Serves

theorem operator?_self {l : String} {s : SortName} (hops : labels.operator? l s = some ops) :
    labels.operator? ops.concat ops.sort = some ops := by
  obtain ⟨hl, rfl⟩ := operator?_cases hops
  exact operator?_eq hl

section Lists
variable {l : String} {s : SortName} (hops : labels.operator? l s = some ops)
include hops

theorem serves_nested {xs vs : List Term} (hne : xs ≠ []) (hknown : AreKnown ops xs)
    (h : List.Forall₂ (Serves labels ops) xs vs) : Serves labels ops (run ops xs) (nested ops vs) := by
  have hvne : vs ≠ [] := by
    rintro rfl
    cases h
    exact hne rfl
  have hcovers := covers_of_serves h
  rw [flatMap_itemsOf_of_isPart fun x hx => (hknown x hx).1] at hcovers
  have hsupplies := (supplies_nested (operator?_self hops) hvne hcovers).1
  have hunresolved : ListParts.isUnresolved { ops } (run ops xs) = false := by
    rw [ListParts.isUnresolved, isOperator_of_operator? hops]
    rfl
  rw [← itemsOf_run ops xs] at hsupplies
  rcases vs with _ | ⟨v, _ | ⟨v', vs⟩⟩
  · exact absurd rfl hvne
  · obtain ⟨x, -, hv⟩ := exists_serves h List.mem_cons_self
    have hvknown := areKnown_of_serves h hknown v List.mem_cons_self
    exact ⟨hv.part, hv.notList, hvknown.2.trans hunresolved.symm, hsupplies⟩
  · refine ⟨rfl, fun _ => rfl, .trans ?_ hunresolved.symm, hsupplies⟩
    rw [ListParts.isUnresolved, isOperator_of_operator? hops]
    rfl

/-- A run is unflattened to its items, nested. -/
theorem turns_unflatten_run {xs : List Term} (hne : xs ≠ []) (hknown : AreKnown ops xs)
    (hx : ∀ x ∈ xs, Turns unflatten x (Serves labels ops x)) :
    Turns unflatten (run ops xs) (Serves labels ops (run ops xs)) := by
  have hop := isOperator_of_operator? hops
  have hc : List.Forall₂ (Turns unflatten) (run ops xs).children (xs.map (Serves labels ops)) := by
    rw [children_run]
    exact List.forall₂_map_right_iff.mpr (List.forall₂_same.mpr hx)
  refine turns_replaceUp makes_unflattenNode unflattenNode_of_var hop hc (fun vs hvs hequal u hu => ?_)
    fun vs hvs t' us fs ht hus _ => ?_
  all_goals have hvs := (List.forall₂_map_left_iff (f := Serves labels ops)).mp hvs
  all_goals have hserves := serves_nested hops hne hknown hvs
  · rw [children_run] at hequal
    have hrun : u == run ops vs := BEq.trans hu (beq_of_alike (.list hequal.symm .nil .nil))
    refine (always_unflattenNode hrun).mono fun v hv => ⟨_, hv, ?_⟩
    rwa [unflatNode_run hop]
  · have hlist : (run ops xs).isListOf ops := decide_eq_true rfl
    obtain ⟨left, base, right, hn⟩ := node_of_isListOf ((ListParts.isListOf_congr ht).trans hlist)
    have hvne : vs ≠ [] := by
      rintro rfl
      cases hvs
      exact hne rfl
    rw [rebuild_list hop hn]
    refine (always_listOf hop hus fun v hv => (exists_serves hvs hv).elim fun _ hc => hc.2.hasOperands).mono
      fun r hr u hu => (always_unflattenNode (BEq.trans hu hr)).mono fun v hv => ⟨_, hv, ?_⟩
    rwa [flatMap_operands_of_isPart (isPart_of_serves hvs), unflatNode_listOf_known hop hvne
      (areKnown_of_serves hvs hknown) fun v hv => (exists_serves hvs hv).elim fun _ hc => hc.2.notList]

/-- What the children of a list are unflattened to, they are the known items of the list. -/
theorem turns_unflatten_children {R : Term → Term → Prop} (hpart : ∀ d ∈ w, isPart ops d)
    (h : ∀ d ∈ w, Turns unflatten d fun v => Serves labels ops d v ∧ R d v) :
    (∀ c ∈ (ListParts.ofOperands ops w).children,
        Turns unflatten c fun v => Serves labels ops c v ∧ (isPart ops c → R c v)) ∧
      (ListParts.ofOperands ops w).children.flatMap (itemsOf ops) = w := by
  let S (c : Term) (z : List Term) : Prop :=
    (Turns unflatten c fun v => Serves labels ops c v ∧ (isPart ops c → R c v)) ∧ c.itemsOf ops = z
  have hsplit {cs ws : List Term} (hS : Covers S cs ws) :
      (∀ c ∈ cs, Turns unflatten c fun v => Serves labels ops c v ∧ (isPart ops c → R c v)) ∧
        cs.flatMap (itemsOf ops) = ws := by
    obtain ⟨zs, hzs, rfl⟩ := hS
    refine ⟨fun c hc => (PairedLists.exists_mem hzs hc).elim fun _ hz => hz.2.1, ?_⟩
    have hmap : List.Forall₂ (· = ·) (cs.map (itemsOf ops)) zs :=
      List.forall₂_map_left_iff.mpr (hzs.imp fun _ _ hz => hz.2)
    rw [List.forall₂_eq_eq_eq] at hmap
    rw [List.flatMap_def, hmap]
  have hruns : HoldsOfRuns ops S := by
    intro xs ws hne hknown hS
    obtain ⟨hturns, hitems⟩ := hsplit hS
    rw [flatMap_itemsOf_of_isPart fun x hx => (hknown x hx).1] at hitems
    have hrun := turns_unflatten_run hops hne hknown fun x hx =>
      Turns.mono (hturns x hx) fun v hv => ⟨v, BEq.refl v, hv.1⟩
    -- a run is no operand, so nothing but what it serves for is asked of it
    have hnot : isPart ops (run ops xs) = false := by simp [isPart, isListOf, run]
    exact ⟨Turns.mono hrun fun v hv => ⟨v, BEq.refl v, hv, fun hpart => by simp [hnot] at hpart⟩,
      (itemsOf_run ops xs).trans hitems⟩
  exact hsplit (ListParts.covers_children hruns hpart (.self fun d hd =>
    ⟨Turns.mono (h d hd) fun v hv => ⟨v, BEq.refl v, hv.1, fun _ => hv.2⟩, ListParts.itemsOf_of_isPart (hpart d hd)⟩))

/-- A list of several operands is unflattened to its parts, nested. -/
theorem unflatNode_listOf (hpart : ∀ d ∈ w, isPart ops d) (hlen : 2 ≤ w.length) :
    unflatNode (listOf ops w) = nested ops (ListParts.ofOperands ops w).children := by
  obtain ⟨left, base, right, hparts, heq⟩ := isListOf_listOf hpart hlen
  rw [heq, ← hparts]
  exact if_pos (isOperator_of_operator? hops)

variable (hunits : labels.UnitsKeep fun _ _ => True)
include hunits

/-- Nested operands of a list stand for the list. -/
theorem undoes_list {cs vs : List Term} (hlist : (listOf ops w).isListOf ops) (hlen : 2 ≤ cs.length)
    (hitems : cs.flatMap (itemsOf ops) = w) (hvs : List.Forall₂ (Serves labels ops) cs vs) :
    Undoes labels (listOf ops w) (unflatNode (listOf ops vs)) := by
  have hpart := isPart_of_serves hvs
  rw [hvs.length_eq] at hlen
  have hcovers := ListParts.covers_children (supplies_run hunits hops) hpart (hitems ▸ covers_of_serves hvs)
  have htwo := two_le_children hpart hlen
  rw [unflatNode_listOf hops hpart hlen]
  generalize (ListParts.ofOperands ops vs).children = ts at hcovers htwo
  obtain ⟨left', base', right', hn⟩ := node_of_isListOf hlist
  match ts, htwo with
  | a :: b :: ts, htwo =>
    refine ⟨(supplies_nested (operator?_self hops) (List.cons_ne_nil a _) hcovers).2 htwo, ?_, ?_, fun _ => rfl,
      fun ops' => ?_⟩
    · rw [SequenceParts.isPlain, SequenceParts.isPlain, hn]
      rfl
    · rw [asVar?, asVar?, hn]
      rfl
    · rw [CollectionOps.isUnit, CollectionOps.isUnit, hn]
      rfl

theorem turns_unflatten_list {R : Term → Term → Prop} (hR : Follows labels R) (hpart : ∀ d ∈ w, isPart ops d)
    (hlist : (listOf ops w).isListOf ops) (hwlen : 2 ≤ w.length)
    (h : ∀ d ∈ w, Turns unflatten d fun v => Serves labels ops d v ∧ R d v) :
    Turns unflatten (listOf ops w) (R (listOf ops w)) := by
  have hop := isOperator_of_operator? hops
  have hlen := two_le_children hpart hwlen
  obtain ⟨hturns, hitems⟩ := turns_unflatten_children hops hpart h
  rw [← children_listOf hpart hlist] at hlen hturns hitems
  have htree : (listOf ops w).isTree := by
    obtain ⟨left, base, right, hn⟩ := node_of_isListOf hlist
    rw [isTree, hn]
    exact hop
  have hserves {vs : List Term} (hvs : List.Forall₂ (fun c v => Serves labels ops c v ∧ (isPart ops c → R c v))
      (listOf ops w).children vs) : List.Forall₂ (Serves labels ops) (listOf ops w).children vs :=
    hvs.imp fun _ _ hv => hv.1
  -- the list of what the children have become is nested, be it the old list or a new one
  have hnested {vs : List Term} {u : Term}
      (hvs : List.Forall₂ (fun c v => Serves labels ops c v ∧ (isPart ops c → R c v)) (listOf ops w).children vs)
      (hu : u == listOf ops vs) : Always (unflattenNode u) (UpTo (R (listOf ops w))) :=
    (always_unflattenNode hu).mono fun v hv =>
      ⟨_, hv, hR.list hops hpart hlist hwlen hvs (undoes_list hops hunits hlist hlen hitems (hserves hvs))⟩
  refine turns_replaceUp makes_unflattenNode unflattenNode_of_var htree
    (List.forall₂_map_right_iff (f := fun c v => Serves labels ops c v ∧ (isPart ops c → R c v)).mpr
      (List.forall₂_same.mpr hturns)) (fun vs hvs hequal u hu => ?_) fun vs hvs t' us fs ht hus _ => ?_
  all_goals
    have hvs := (List.forall₂_map_left_iff (f := fun c v => Serves labels ops c v ∧ (isPart ops c → R c v))).mp hvs
    have hparts := isPart_of_serves (hserves hvs)
  · refine hnested hvs (BEq.trans hu (listOf_congr ?_))
    have hchildren : ∀ c ∈ (listOf ops w).children, isPart ops c := by
      intro c hc
      obtain ⟨v, hv, hvc⟩ := PairedLists.exists_mem hequal.symm hc
      rw [ListParts.isPart_congr hvc]
      exact hparts v hv
    rw [flatMap_itemsOf_of_isPart hchildren] at hitems
    exact hitems ▸ hequal.symm
  · obtain ⟨left, base, right, hn⟩ := node_of_isListOf ((ListParts.isListOf_congr ht).trans hlist)
    rw [rebuild_list hop hn]
    refine (always_listOf hop hus fun v hv =>
      (exists_serves (hserves hvs) hv).elim fun _ hc => hc.2.hasOperands).mono fun r hr u hu => hnested hvs ?_
    rw [← flatMap_operands_of_isPart hparts]
    exact BEq.trans hu hr

end Lists

/-! ### Flat terms -/

/-- A list that is a node of its own has several operands. -/
theorem two_le_of_isListOf (hpart : ∀ d ∈ w, isPart ops d) (hlist : (listOf ops w).isListOf ops) :
    2 ≤ w.length := by
  match w with
  | [] => cases hlist
  | [t] =>
    have ht := hpart t List.mem_cons_self
    rw [listOf_singleton] at hlist
    rw [isPart, hlist] at ht
    cases ht
  | t :: u :: w => simp

/-- A relation that follows the nodes holds between a flat term and what it is unflattened to. -/
theorem turns_unflatten_of {R : Term → Term → Prop} (hR : Follows labels R)
    (hunits : labels.UnitsKeep fun _ _ => True) (hF : IsFlattened labels F) : Turns unflatten F (R F) := by
  have hself := hF
  induction hF with
  | leaf h => exact turns_unflatten_leaf hR h
  | @frozen r f args s hn hf hargs ihf ihargs =>
    have hflat := List.forall_mem_cons.mpr ⟨hf, hargs⟩
    have hchildren : r.children = f :: args := by rw [children, hn]; rfl
    have hord := isOrdinary_of_app hn
    refine turns_unflatten_of_children hR hord ?_ fun vs hvs => ?_
    · rw [hchildren]
      exact List.forall_mem_cons.mpr ⟨ihf hf, fun a ha => ihargs a ha (hargs a ha)⟩
    · have hundoes : List.Forall₂ (Undoes labels) (f :: args) vs := hchildren ▸ hvs.imp fun _ _ hv => hR.undoes hv
      obtain ⟨g, gs, rfl⟩ : ∃ g gs, vs = g :: gs := by
        cases hundoes
        exact ⟨_, _, rfl⟩
      have hrefilled := refilled_frozen hn g gs
      exact hR.ordinary hord rfl (by rw [hrefilled]; rfl) hvs (hrefilled ▸ undoes_frozen hself hn hflat hundoes)
  | @app r l args s hn hs hl hargs ih =>
    have hchildren : r.children = args := by rw [children, hn]; rfl
    have hord := isOrdinary_of_app hn
    refine turns_unflatten_of_children hR hord ?_ fun vs hvs => ?_
    · rw [hchildren]
      exact fun a ha => ih a ha (hargs a ha)
    · have hundoes : List.Forall₂ (Undoes labels) args vs := hchildren ▸ hvs.imp fun _ _ hv => hR.undoes hv
      have hrefilled := refilled_app hn vs
      exact hR.ordinary hord rfl (by rw [hrefilled]; rfl) hvs (hrefilled ▸ undoes_app hself hn hargs hundoes)
  | @seq w hplain hw h ih =>
    obtain ⟨items, frame, hn⟩ := SequenceParts.node_of_not_isPlain h
    have hitems : ∀ c ∈ items, IsFlattened labels c ∧ Turns unflatten c (R c) := by
      intro c hc
      have hc : c ∈ (sequenceOf w).children := by rwa [children, hn]
      rcases mem_children_sequenceOf hplain h hc with hc | ⟨v, rfl⟩
      · exact ⟨hw c hc, ih c hc (hw c hc)⟩
      · exact ⟨.leaf rfl, turns_unflatten_leaf hR rfl⟩
    exact turns_unflatten_sequence hR hself hn (fun c hc => (hitems c hc).1) fun c hc => (hitems c hc).2
  | list hops hpart hw h ih =>
    exact turns_unflatten_list hops hunits hR hpart h (two_le_of_isListOf hpart h) fun d hd =>
      Turns.mono (ih d hd (hw d hd)) fun u hu =>
        ⟨u, BEq.refl u, (hR.undoes hu).serves (hw d hd) (hpart d hd), hu⟩

/-- A flat term is unflattened to one that is flattened back. -/
theorem turns_unflatten (hunits : labels.UnitsKeep fun _ _ => True) (hF : IsFlattened labels F) :
    Turns unflatten F (Undoes labels F) :=
  turns_unflatten_of (follows_undoes labels) hunits hF

/-- Where no declared unit is associative itself, a term that is flattened stays as it is when it is flattened
again, and it is found again when it is unflattened and then flattened. -/
theorem flatten_unflatten {sorts : String → SortName}
    (hunits : ∀ l e, labels.isAssociative l → labels.unit? l = some e → labels.isAssociative e = false)
    (ht : t.IsSyntax sorts) {n : Nat} (hn : AreHeap n [t]) :
    Gives n (fun k f => Gives k (fun _ f' => f' == f) (f.flatten labels) ∧
      Gives k (fun m u => Gives m (fun _ f' => f' == f) (u.flatten labels)) f.unflatten) (t.flatten labels) := by
  have hkeep : labels.UnitsKeep fun _ _ => True := fun l e _ hl he _ => ⟨hunits l e hl he, trivial⟩
  have hflat := ht.isFlat hkeep fun _ => trivial
  have hhas := World.has_ofHeap hn t List.mem_cons_self
  obtain ⟨f, w, hf, hw, -, hfhas, _, hfF, rfl⟩ := turns_flatten hkeep (fun _ => trivial) ht t (BEq.refl t) _ hhas
  refine ⟨f, w.next, hf, hw.1, ?_, ?_⟩
  · obtain ⟨f', w', hf', hw', -, -, _, hf'F, rfl⟩ := flattensTo_self hkeep hflat f hfF w hfhas
    exact ⟨f', w'.next, hf', hw'.1, BEq.trans hf'F (BEq.symm hfF)⟩
  · obtain ⟨u, w', hu, hw', -, huhas, U, huU, hundoes⟩ := turns_unflatten hkeep hflat f hfF w hfhas
    refine ⟨u, w'.next, hu, hw'.1, ?_⟩
    obtain ⟨f', w'', hf', hw'', -, -, _, hf'F, rfl⟩ := hundoes.flattens u huU w' huhas
    exact ⟨f', w''.next, hf', hw''.1, BEq.trans hf'F (BEq.symm hfF)⟩

end Term

namespace LabelTable

/-- Two known statements between statements that are not known. -/
def between : Term := andThen 3 rest (andThen 2 (andThen 1 (.constant "skip") (.constant "halt")) rest)

/-- The sort of the unit is not the sort of the list here. -/
theorem flatten_unflatten_between :
    (∀ l e, (statements ⟨"Empty"⟩).isAssociative l → (statements ⟨"Empty"⟩).unit? l = some e →
      (statements ⟨"Empty"⟩).isAssociative e = false) ∧
      between.IsSyntax (statements ⟨"Empty"⟩).declaredSort ∧ Term.AreHeap 4 [between] ∧
      Gives 4 (fun k f => Gives k (fun _ f' => f' == f) (f.flatten (statements ⟨"Empty"⟩)) ∧
        Gives k (fun m u => Gives m (fun _ f' => f' == f) (u.flatten (statements ⟨"Empty"⟩))) f.unflatten)
        (between.flatten (statements ⟨"Empty"⟩)) := by
  have hunits : ∀ l e, (statements ⟨"Empty"⟩).isAssociative l → (statements ⟨"Empty"⟩).unit? l = some e →
      (statements ⟨"Empty"⟩).isAssociative e = false := by
    intro l e hl he
    obtain rfl := eq_of_isAssociative hl
    cases he
    decide
  have hsyntax : between.IsSyntax (statements ⟨"Empty"⟩).declaredSort := by decide
  have hheap : Term.AreHeap 4 [between] := by decide
  exact ⟨hunits, hsyntax, hheap, Term.flatten_unflatten hunits hsyntax hheap⟩

end LabelTable

end RuleCompiler
