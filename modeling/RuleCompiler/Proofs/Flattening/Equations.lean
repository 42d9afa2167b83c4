import RuleCompiler.Proofs.Flattening.Walk

/-! # Associativity and units

The associative labels of a table are associative operators with units. Terms that are equal modulo these
equations, used anywhere, are flattened to equal terms. -/

namespace RuleCompiler

open Build (Gives)
open MonadAttach (CanReturn)
open Term (Equal IsHeap IsSyntax)

/-- One equation of an associative label, at the top of the terms. -/
inductive LabelTable.Equation (labels : LabelTable) : Term → Term → Prop where
  | assoc {l : String} {s : SortName} {t u a b x y z : Term} (hl : labels.isAssociative l)
      (ht : t.node = .app (.const l) [a, z] s) (ha : a.node = .app (.const l) [x, y] s)
      (hu : u.node = .app (.const l) [x, b] s) (hb : b.node = .app (.const l) [y, z] s) : Equation labels t u
  | unitLeft {l e : String} {s s' : SortName} {t c u : Term} (hl : labels.isAssociative l)
      (he : labels.unit? l = some e) (ht : t.node = .app (.const l) [c, u] s)
      (hc : c.node = .app (.const e) [] s') : Equation labels t u
  | unitRight {l e : String} {s s' : SortName} {t c u : Term} (hl : labels.isAssociative l)
      (he : labels.unit? l = some e) (ht : t.node = .app (.const l) [u, c] s)
      (hc : c.node = .app (.const e) [] s') : Equation labels t u

/-- Equality of terms modulo the equations of the label table, in any place of the terms. -/
inductive LabelTable.EqualModulo (labels : LabelTable) (sorts : String → SortName) : Term → Term → Prop where
  | same {t u : Term} (ht : t.IsSyntax sorts) (hu : u.IsSyntax sorts) (h : t == u) :
      EqualModulo labels sorts t u
  | equation {t u : Term} (ht : t.IsSyntax sorts) (hu : u.IsSyntax sorts) (h : labels.Equation t u) :
      EqualModulo labels sorts t u
  | symm {t u : Term} (h : EqualModulo labels sorts t u) : EqualModulo labels sorts u t
  | trans {t u v : Term} (h : EqualModulo labels sorts t u) (h' : EqualModulo labels sorts u v) :
      EqualModulo labels sorts t v
  | arg {label : Label} {before after : List Term} {s : SortName} {t u c d : Term} (ht : t.IsSyntax sorts)
      (hu : u.IsSyntax sorts) (h : EqualModulo labels sorts c d)
      (htn : t.node = .app label (before ++ c :: after) s)
      (hun : u.node = .app label (before ++ d :: after) s) : EqualModulo labels sorts t u
  | frozen {args : List Term} {s : SortName} {t u c d : Term} (ht : t.IsSyntax sorts) (hu : u.IsSyntax sorts)
      (h : EqualModulo labels sorts c d) (htn : t.node = .app (.freezer c) args s)
      (hun : u.node = .app (.freezer d) args s) : EqualModulo labels sorts t u
  /-- What takes the place of an item may be a sequence, which is spliced. -/
  | item {before after : List Term} {t u c d : Term} (ht : t.IsSyntax sorts) (hu : u.IsSyntax sorts)
      (hother : ∀ e ∈ before ++ after, e.IsSyntax sorts) (h : EqualModulo labels sorts c d)
      (htn : CanReturn (Term.sequence (before ++ c :: after)) t)
      (hun : CanReturn (Term.sequence (before ++ d :: after)) u) : EqualModulo labels sorts t u

namespace LabelTable
variable {labels : LabelTable} {sorts : String → SortName} {t u : Term}

theorem EqualModulo.isSyntax (h : labels.EqualModulo sorts t u) : t.IsSyntax sorts ∧ u.IsSyntax sorts := by
  induction h with
  | same ht hu _ => exact ⟨ht, hu⟩
  | equation ht hu _ => exact ⟨ht, hu⟩
  | symm _ ih => exact ih.symm
  | trans _ _ ih ih' => exact ⟨ih.1, ih'.2⟩
  | arg ht hu _ _ _ _ => exact ⟨ht, hu⟩
  | frozen ht hu _ _ _ _ => exact ⟨ht, hu⟩
  | item ht hu _ _ _ _ _ => exact ⟨ht, hu⟩

section Operands
variable (hunits : labels.UnitsFit sorts) {l : String} {ops : CollectionOps}
  (hops : labels.operator? l (sorts l) = some ops)
include hunits

include hops in
theorem operands_flat {args : List Term} (ht : t.IsSyntax sorts)
    (hn : t.node = .app (.const l) args (sorts l)) :
    (t.flat labels).operands ops = args.flatMap fun c => (c.flat labels).operands ops := by
  rw [Term.flat_of_operator hn hops]
  refine Term.operands_listOf fun d hd => ?_
  obtain ⟨c, hc, hd⟩ := List.mem_flatMap.mp hd
  have hc : c ∈ t.children := by rwa [Term.children, hn]
  exact ((Term.isFlat_flat hunits (ht.child hc)).hasOperands ops).isPart_operands d hd

/-- A declared unit has no operands. -/
theorem operands_flat_unit {e : String} {s : SortName} (hl : labels.isAssociative l)
    (he : labels.unit? l = some e) (hn : t.node = .app (.const e) [] s) :
    (t.flat labels).operands ⟨sorts l, l, e, none⟩ = [] := by
  rw [Term.flat_of_constructor hn (hunits l e hl he).1, Term.operands_of_not_list rfl, if_pos]
  exact beq_self_eq_true e

end Operands

theorem Equation.flat_beq (hunits : labels.UnitsFit sorts) (ht : t.IsSyntax sorts) (hu : u.IsSyntax sorts)
    (h : labels.Equation t u) : t.flat labels == u.flat labels := by
  cases h with
  | @assoc l s _ _ a b x y z hl htn han hun hbn =>
    obtain rfl := ht.sort_eq htn
    have hops := Term.operator?_eq (s := sorts l) hl
    have ha : a.IsSyntax sorts := ht.child (by rw [Term.children, htn]; exact List.mem_cons_self)
    have hb : b.IsSyntax sorts := hu.child (by rw [Term.children, hun]; simp [Node.children])
    rw [Term.flat_of_operator htn hops, Term.flat_of_operator hun hops]
    simp only [List.flatMap_cons, List.flatMap_nil, List.append_nil, operands_flat hunits hops ha han,
      operands_flat hunits hops hb hbn, List.append_assoc]
    exact BEq.refl _
  | @unitLeft l e s s' _ c _ hl he htn hcn =>
    obtain rfl := ht.sort_eq htn
    have hops := Term.operator?_eq (s := sorts l) hl
    rw [he, Option.getD_some] at hops
    rw [Term.flat_of_operator htn hops, List.flatMap_cons, operands_flat_unit hunits hl he hcn,
      List.nil_append, List.flatMap_singleton]
    exact (Term.isFlat_flat hunits hu).beq_listOf hunits hops
  | @unitRight l e s s' _ c _ hl he htn hcn =>
    obtain rfl := ht.sort_eq htn
    have hops := Term.operator?_eq (s := sorts l) hl
    rw [he, Option.getD_some] at hops
    rw [Term.flat_of_operator htn hops, List.flatMap_cons, List.flatMap_singleton,
      operands_flat_unit hunits hl he hcn, List.append_nil]
    exact (Term.isFlat_flat hunits hu).beq_listOf hunits hops

/-- Terms that are equal modulo the equations have equal flat terms. -/
theorem EqualModulo.flat_beq (hunits : labels.UnitsFit sorts) (h : labels.EqualModulo sorts t u) :
    t.flat labels == u.flat labels := by
  induction h with
  | same _ _ h => exact Term.flat_congr h
  | equation ht hu h => exact h.flat_beq hunits ht hu
  | symm _ ih => exact BEq.symm ih
  | trans _ _ ih ih' => exact BEq.trans ih ih'
  | @arg label before after s _ _ c d ht hu h htn hun ih =>
    have hargs : Equal ((before ++ c :: after).map (Term.flat labels))
        ((before ++ d :: after).map (Term.flat labels)) := by
      rw [List.map_append, List.map_append, List.map_cons, List.map_cons]
      exact Equal.append (.refl _) (.cons ih (Equal.refl _))
    cases label with
    | const l =>
      rw [Term.flat_of_app htn, Term.flat_of_app hun]
      exact Term.flatNode_congr (Term.beq_of_alike (.app hargs))
    | freezer f =>
      rw [Term.flat_of_frozen htn, Term.flat_of_frozen hun]
      exact Term.beq_of_alike (.freezer (BEq.refl _) hargs)
  | frozen ht hu h htn hun ih =>
    rw [Term.flat_of_frozen htn, Term.flat_of_frozen hun]
    exact Term.beq_of_alike (.freezer ih (Equal.refl _))
  | @item before after _ _ c d ht hu hother h htn hun ih =>
    have hsequence {e v : Term} (he : e.IsSyntax sorts) (hv : v.IsSyntax sorts)
        (hvn : CanReturn (Term.sequence (before ++ e :: after)) v) :
        v.flat labels == Term.sequenceOf (Term.flatItems labels (before ++ e :: after)) := by
      have hall : ∀ c ∈ before ++ e :: after, c.IsSyntax sorts := by
        simp only [List.forall_mem_append, List.forall_mem_cons] at hother ⊢
        exact ⟨hother.1, he, hother.2⟩
      refine Term.flat_sequence hunits hv hall ?_
      exact (Term.always_sequence fun c hc => (hall c hc).hasProperItems).returns v hvn
    have hitems : Equal (Term.flatItems labels (before ++ c :: after))
        (Term.flatItems labels (before ++ d :: after)) := by
      simp only [Term.flatItems, List.flatMap_append, List.flatMap_cons]
      exact Equal.append (.refl _) (Equal.append (Term.sequenceItems_congr ih) (.refl _))
    refine BEq.trans (hsequence h.isSyntax.1 ht htn) (BEq.trans (Term.sequenceOf_congr hitems) (BEq.symm ?_))
    exact hsequence h.isSyntax.2 hu hun

/-- Terms that are equal modulo associativity and units are flattened to equal terms. -/
theorem EqualModulo.flatten_beq (hunits : labels.UnitsFit sorts) (h : labels.EqualModulo sorts t u)
    {n m : Nat} (ht : IsHeap n [t]) (hu : IsHeap m [u]) :
    Gives n (fun _ t' => Gives m (fun _ u' => t' == u') (u.flatten labels)) (t.flatten labels) := by
  obtain ⟨hst, hsu⟩ := h.isSyntax
  refine (Term.gives_flatten hunits ht hst).mono fun _ t' _ ht' => ?_
  refine (Term.gives_flatten hunits hu hsu).mono fun _ u' _ hu' => ?_
  exact BEq.trans ht' (BEq.trans (h.flat_beq hunits) (BEq.symm hu'))

/-! ### Lists of statements -/

/-- A table with one operator, whose unit has the given sort. -/
def statements (emptySort : SortName) : LabelTable where
  entries := [("_;_", ⟨⟨"Stmts"⟩, 2, { entries := [("assoc", none), ("unit", some ".Stmts")] }⟩),
    (".Stmts", ⟨emptySort, 0, {}⟩)]

/-- The sorts that the table declares. -/
def declaredSort (labels : LabelTable) (l : String) : SortName := (labels.sort? l).getD .kItem

theorem eq_of_isAssociative {s : SortName} {l : String} (h : (statements s).isAssociative l) : l = "_;_" := by
  by_contra hl
  have hget : (statements s).get? l = if ".Stmts" = l then some ⟨s, 0, {}⟩ else none := by
    unfold get? statements
    rw [List.find?_cons_of_neg (by simpa using Ne.symm hl), List.find?_cons]
    split <;> split <;> simp_all
  have hno (key : String) : (statements s).hasAttribute l key = false := by
    rw [hasAttribute, hget]
    split <;> rfl
  simp [isAssociative, hno] at h

theorem unitsFit_statements : (statements ⟨"Stmts"⟩).UnitsFit (statements ⟨"Stmts"⟩).declaredSort := by
  intro l u hl hu
  obtain rfl := eq_of_isAssociative hl
  cases hu
  decide

/-- Statements put one after the other. -/
def andThen (id : Nat) (first second : Term) : Term :=
  ⟨⟨id, false⟩, .app (.const "_;_") [first, second] ⟨"Stmts"⟩⟩

/-- Statements that are not known yet. -/
def rest : Term := ⟨⟨0, false⟩, .var ⟨"Rest", ⟨"Stmts"⟩, 0⟩⟩

/-- Three lists of statements, put together from the left. -/
def fromLeft : Term := andThen 2 (andThen 1 (.constant "skip") rest) (.constant "halt")

/-- The same, put together from the right. -/
def fromRight : Term := andThen 2 (.constant "skip") (andThen 1 rest (.constant "halt"))

theorem isHeap_fromLeft : IsHeap 3 [fromLeft] :=
  .of_nodes Term.mem_subterms_of_isNode (by decide) (by decide) (by decide)

theorem isHeap_fromRight : IsHeap 3 [fromRight] :=
  .of_nodes Term.mem_subterms_of_isNode (by decide) (by decide) (by decide)

theorem equalModulo_fromLeft :
    (statements ⟨"Stmts"⟩).EqualModulo (statements ⟨"Stmts"⟩).declaredSort fromLeft fromRight :=
  .equation (by decide) (by decide) (.assoc (by decide) rfl rfl rfl rfl)

theorem flatten_fromLeft :
    (statements ⟨"Stmts"⟩).UnitsFit (statements ⟨"Stmts"⟩).declaredSort ∧
      (statements ⟨"Stmts"⟩).EqualModulo (statements ⟨"Stmts"⟩).declaredSort fromLeft fromRight ∧
      IsHeap 3 [fromLeft] ∧ IsHeap 3 [fromRight] ∧
      Gives 3 (fun _ t => Gives 3 (fun _ u => t == u) (fromRight.flatten (statements ⟨"Stmts"⟩)))
        (fromLeft.flatten (statements ⟨"Stmts"⟩)) :=
  ⟨unitsFit_statements, equalModulo_fromLeft, isHeap_fromLeft, isHeap_fromRight,
    equalModulo_fromLeft.flatten_beq unitsFit_statements isHeap_fromLeft isHeap_fromRight⟩

/-- The empty list of statements, of a sort of its own. -/
def noStatements : Term := .constant ".Stmts" ⟨"Empty"⟩

/-- The unit that is left where nothing is left of a list has the sort of the list, not its own. -/
theorem exists_equal_flatten_ne : ∃ (labels : LabelTable) (sorts : String → SortName) (t u t' u' : Term),
    (∀ l e, labels.isAssociative l → labels.unit? l = some e → labels.isAssociative e = false) ∧
      labels.EqualModulo sorts t u ∧ IsHeap 1 [t] ∧ IsHeap 1 [u] ∧ (t.flatten labels) 1 = (.ok t', 1) ∧
      (u.flatten labels) 1 = (.ok u', 1) ∧ (t' == u') = false := by
  refine ⟨statements ⟨"Empty"⟩, (statements ⟨"Empty"⟩).declaredSort, andThen 0 noStatements noStatements,
    noStatements, .constant ".Stmts" ⟨"Stmts"⟩, noStatements, fun l e hl he => ?_,
    .equation (by decide) (by decide) (.unitLeft (by decide) rfl rfl rfl), ?_, ?_, rfl, rfl, by decide⟩
  · obtain rfl := eq_of_isAssociative hl
    cases he
    decide
  all_goals exact .of_nodes Term.mem_subterms_of_isNode (by decide) (by decide) (by decide)

end LabelTable

end RuleCompiler
