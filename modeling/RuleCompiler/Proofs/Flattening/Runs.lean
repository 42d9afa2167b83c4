import RuleCompiler.Proofs.Flattening.RoundTrip
import RuleCompiler.Proofs.Rebuilding.LiftedPatterns

/-! # Runs of known operands

A list of an operator is unflattened to nested applications of the operator to its operands, unless known operands
stand between unknown ones. Then the run of the known ones is a list of its own among the parts. It is unflattened
first, but the list around it is made again after that and makes a run of it again, so it is left as a list. -/

namespace RuleCompiler

open Build (Always Gives)
open Term (Equal IsSyntax AreHeap)
open ListParts (isPart run)

namespace ListParts
variable {ops : CollectionOps} {p : ListParts} {t : Term} {ts us : List Term}

/-- Which of the terms are still unknown as parts of a list of `ops`. -/
def unknowns (ops : CollectionOps) (ts : List Term) : List Bool := ts.map (isUnresolved { ops })

/-- Some run of known items is a part of its own. -/
def HasRun (p : ListParts) : Prop := ∃ c ∈ p.base, c.isListOf p.ops

theorem concat_sublist_concat {a b : Bool} {l m : List Bool} :
    List.Sublist (l ++ [a]) (m ++ [b]) ↔ List.Sublist (l ++ [a]) m ∨ a = b ∧ List.Sublist l m := by
  rw [← List.reverse_sublist, List.reverse_append, List.reverse_append, List.reverse_singleton, List.reverse_singleton,
    List.singleton_append, List.singleton_append, List.sublist_cons_iff, ← List.reverse_sublist, List.reverse_reverse,
    List.reverse_cons, List.reverse_reverse]
  refine or_congr_right ⟨?_, ?_⟩
  · rintro ⟨r, hr, hsub⟩
    cases hr
    exact ⟨rfl, List.reverse_sublist.mp hsub⟩
  · rintro ⟨rfl, hsub⟩
    exact ⟨_, rfl, List.reverse_sublist.mpr hsub⟩

theorem unknowns_append (ops : CollectionOps) (ts us : List Term) :
    unknowns ops (ts ++ us) = unknowns ops ts ++ unknowns ops us := List.map_append

theorem unknowns_singleton (ops : CollectionOps) (t : Term) : unknowns ops [t] = [isUnresolved { ops } t] := rfl

theorem unknowns_closed (hop : ops.isOperator) (hts : ts ≠ []) : unknowns ops (closed ops ts) = [false] := by
  rw [closed, if_neg (by simpa using hts), unknowns_singleton, isUnresolved, hop]
  rfl

/-- What the parts of a list tell of its operands. -/
structure Tells (ts : List Term) (p : ListParts) : Prop where
  unknown : List.Sublist [true] (unknowns p.ops ts) ↔ p.base ≠ []
  pending : List.Sublist [true, false] (unknowns p.ops ts) ↔ p.HasRun ∨ p.right ≠ []
  run : List.Sublist [true, false, true] (unknowns p.ops ts) ↔ p.HasRun
  base : p.base ≠ [] → List.Sublist [true] (unknowns p.ops p.base)
  between : p.HasRun → List.Sublist [true, false, true] (unknowns p.ops p.base)
  kept : ¬ p.HasRun → p.children = ts

/-- An operand that is unknown closes the run before it. -/
theorem Tells.unresolved (h : Tells ts p) (hopen : p.IsOpen) (hop : p.ops.isOperator) (ht : isPart p.ops t)
    (hu : isUnresolved { ops := p.ops } t = true) :
    Tells (ts ++ [t]) { p with base := p.base ++ closed p.ops p.right ++ [t], right := [] } := by
  have hlist : t.isListOf p.ops = false := by
    rw [isPart, Bool.and_eq_true, Bool.not_eq_true'] at ht
    exact ht.1
  have hrun : HasRun { p with base := p.base ++ closed p.ops p.right ++ [t], right := [] } ↔
      p.HasRun ∨ p.right ≠ [] := by
    have hclosed : (∃ c, c ∈ closed p.ops p.right ∧ c.isListOf p.ops = true) ↔ p.right ≠ [] := by
      unfold closed
      split
      · rename_i hnil
        simp [List.isEmpty_iff.mp hnil]
      · rename_i hne
        simpa [Term.isListOf] using hne
    simp only [HasRun, List.mem_append, or_and_right, exists_or, hclosed, List.mem_singleton, exists_eq_left,
      hlist, Bool.false_eq_true, or_false]
  refine ⟨?_, ?_, ?_, fun _ => ?_, fun hr => ?_, fun hr => ?_⟩
  · rw [unknowns_append, unknowns_singleton, hu]
    simp
  · rw [unknowns_append, unknowns_singleton, hu, hrun, ← h.pending]
    exact (concat_sublist_concat (l := [true])).trans (by simp)
  · rw [unknowns_append, unknowns_singleton, hu, hrun, ← h.pending]
    refine (concat_sublist_concat (l := [true, false])).trans ⟨fun hs => hs.elim (fun hs => ?_) And.right, ?_⟩
    · exact h.pending.mpr (.inl (h.run.mp hs))
    · exact fun hs => .inr ⟨rfl, hs⟩
  · rw [unknowns_append, unknowns_singleton, hu]
    exact List.sublist_append_right _ _
  · rw [unknowns_append, unknowns_singleton, hu, unknowns_append]
    rcases hrun.mp hr with hr | hr
    · rw [List.append_assoc]
      exact (h.between hr).trans (List.sublist_append_left _ _)
    · have hbase := h.base fun hnil => hr (hopen.right hnil)
      rw [unknowns_closed hop hr]
      exact (hbase.append (List.Sublist.refl [false])).append (List.Sublist.refl [true])
  · have hnone := fun h' => hr (hrun.mpr h')
    have hright : p.right = [] := by_contra fun hne => hnone (.inr hne)
    rw [← h.kept fun h' => hnone (.inl h'), children, children, hright]
    simp [closed]

/-- An operand that is known belongs to the run that is open. -/
theorem Tells.resolved (h : Tells ts p) (hopen : p.IsOpen) (hu : isUnresolved { ops := p.ops } t = false) :
    Tells (ts ++ [t]) (p.addItem t) := by
  have hparts : (p.addItem t).ops = p.ops ∧ (p.addItem t).base = p.base := by
    unfold addItem
    split <;> exact ⟨rfl, rfl⟩
  have hrun : (p.addItem t).HasRun ↔ p.HasRun := by rw [HasRun, HasRun, hparts.1, hparts.2]
  have hbase : p.HasRun → p.base ≠ [] := by
    rintro ⟨c, hc, -⟩ hnil
    rw [hnil] at hc
    cases hc
  refine ⟨?_, ?_, ?_, ?_, ?_, fun hr => ?_⟩
  · rw [hparts.1, unknowns_append, unknowns_singleton, hu, hparts.2, ← h.unknown]
    exact (concat_sublist_concat (l := [])).trans (by simp)
  · rw [hparts.1, unknowns_append, unknowns_singleton, hu, hrun]
    refine (concat_sublist_concat (l := [true])).trans ?_
    rw [List.cons_append, List.nil_append, h.pending, h.unknown]
    unfold addItem
    split
    · rename_i hnil
      have hnil := List.isEmpty_iff.mp hnil
      simp [hnil, hopen.right hnil]
    · rename_i hne
      simp [List.isEmpty_iff.not.mp hne]
  · rw [hparts.1, unknowns_append, unknowns_singleton, hu, hrun, ← h.run]
    exact (concat_sublist_concat (l := [true, false])).trans (by simp)
  · rw [hparts.1, hparts.2]
    exact h.base
  · rw [hparts.1, hparts.2, hrun]
    exact h.between
  · rw [← h.kept fun h' => hr (hrun.mpr h')]
    unfold addItem
    split
    · rename_i hnil
      have hnil := List.isEmpty_iff.mp hnil
      simp [children, hnil, hopen.right hnil]
    · simp [children]

theorem tells_ofOperands (hop : ops.isOperator) (h : ∀ t ∈ ts, isPart ops t) : Tells ts (ofOperands ops ts) := by
  induction ts using List.reverseRecOn with
  | nil =>
    have hnone : ¬ HasRun { ops } := by
      rintro ⟨c, hc, -⟩
      cases hc
    exact ⟨by simp [unknowns, ofOperands], by simp [unknowns, ofOperands, hnone], by simp [unknowns, ofOperands, hnone],
      fun hne => absurd rfl hne, fun hr => absurd hr hnone, fun _ => rfl⟩
  | append_singleton ts t ih =>
    rw [List.forall_mem_append, List.forall_mem_singleton] at h
    have hopen := isOpen_ofOperands h.1
    have hops := ofOperands_ops ops ts
    have htells := ih h.1
    rw [ofOperands_concat]
    generalize ofOperands ops ts = p at hopen hops htells
    subst hops
    unfold pushed
    split
    · rename_i hu
      exact htells.unresolved hopen hop h.2 hu
    · rename_i hu
      exact htells.resolved hopen (Bool.not_eq_true _ ▸ hu)

end ListParts

namespace Term
variable {labels : LabelTable} {ops : CollectionOps} {F U t u : Term} {ts us vs w : List Term}

open ListParts (HasRun Tells unknowns)

/-! ### Nested terms -/

/-- Whether the node is no list with a run among its parts. -/
def isRunFreeNode (t : Term) : Bool :=
  match t.node with
  | .list ops _ base _ => base.all fun c => !c.isListOf ops
  | _ => true

/-- In no list of the term known operands stand between unknown ones. -/
def IsRunFree (t : Term) : Prop := t.everyNode isRunFreeNode

/-- Whether the node is no list of a user operator. -/
def isListFreeNode (t : Term) : Bool :=
  match t.node with
  | .list ops .. => !ops.isOperator
  | _ => true

/-- No list of a user operator is in the term. -/
def IsListFree (t : Term) : Prop := t.everyNode isListFreeNode

instance (t : Term) : Decidable t.IsRunFree := inferInstanceAs (Decidable (_ = true))

instance (t : Term) : Decidable t.IsListFree := inferInstanceAs (Decidable (_ = true))

/-- Every list of the term replaced by its operands under its operator, nested to the right. -/
def nestedForm : Term → Term := fold fun t below =>
  match t.node with
  | .list ops .. => nested ops below
  | _ => t.refilled below

theorem nestedForm_of_list {left base right : List Term} (hn : t.node = .list ops left base right) :
    t.nestedForm = nested ops (t.children.map nestedForm) := by
  rw [nestedForm, fold_eq, hn]

theorem nestedForm_of_isOrdinary (h : t.IsOrdinary) : t.nestedForm = t.refilled (t.children.map nestedForm) := by
  rw [nestedForm, fold_eq]
  unfold IsOrdinary at h
  split
  · rename_i hn
    simp [hn, Node.isLeaf] at h
  · rfl

theorem nestedForm_congr (h : t == u) : t.nestedForm == u.nestedForm := by
  induction t using Term.induction generalizing u with
  | h t ih =>
    have hbelow : Equal (t.children.map nestedForm) (u.children.map nestedForm) :=
      List.forall₂_map_left_iff.mpr (List.forall₂_map_right_iff.mpr
        (PairedLists.imp_mem (children_congr h) fun c hc _ _ hcd => ih c hc hcd))
    have hrefilled := refilled_congr h hbelow
    have halike := alike_of_beq h
    rw [nestedForm, fold_eq, fold_eq, ← nestedForm]
    generalize t.node = m, u.node = n at halike
    cases halike with
    | list _ _ _ => exact nested_congr hbelow
    | _ => exact hrefilled

theorem isRunFree_congr (h : t == u) (ht : t.IsRunFree) : u.IsRunFree := by
  refine everyNode_congr (fun {t u} h ht => ?_) h ht
  have halike := alike_of_beq h
  unfold isRunFreeNode at ht ⊢
  generalize t.node = m, u.node = n at halike ht
  cases halike with
  | list _ hbase _ =>
    refine List.all_eq_true.mpr fun d hd => ?_
    obtain ⟨c, hc, hcd⟩ := PairedLists.exists_mem hbase.flip hd
    rw [← ListParts.isListOf_congr hcd]
    exact List.all_eq_true.mp ht c hc
  | _ => rfl

theorem isListFree_congr (h : t == u) (ht : t.IsListFree) : u.IsListFree := by
  refine everyNode_congr (fun {t u} h ht => ?_) h ht
  have halike := alike_of_beq h
  unfold isListFreeNode at ht ⊢
  generalize t.node = m, u.node = n at halike ht
  cases halike <;> exact ht

/-! ### Nodes without lists -/

theorem isListFreeNode_of_not_list (h : ∀ ops, t.isListOf ops = false) : t.isListFreeNode := by
  unfold isListFreeNode
  split
  · rename_i ops _ _ _ hn
    have hlist := h ops
    rw [isListOf, hn, decide_eq_false_iff_not] at hlist
    exact absurd rfl hlist
  · rfl

theorem isRunFreeNode_of_isOrdinary (h : t.IsOrdinary) : t.isRunFreeNode := by
  unfold IsOrdinary at h
  unfold isRunFreeNode
  split
  · rename_i hn
    simp [hn, Node.isLeaf] at h
  · rfl

theorem isListFree_iff (h : ∀ ops, t.isListOf ops = false) : t.IsListFree ↔ ∀ c ∈ t.children, c.IsListFree :=
  everyNode_iff.trans ⟨fun h => h.2.1, fun hc => ⟨isListFreeNode_of_not_list h, hc, fun _ _ => rfl⟩⟩

theorem isRunFree_iff (h : t.IsOrdinary) : t.IsRunFree ↔ ∀ c ∈ t.children, c.IsRunFree :=
  everyNode_iff.trans ⟨fun h => h.2.1, fun hc => ⟨isRunFreeNode_of_isOrdinary h, hc, fun _ _ => rfl⟩⟩

theorem isListFree_nested : ∀ {ts : List Term}, ts ≠ [] →
    ((nested ops ts).IsListFree ↔ ∀ t ∈ ts, t.IsListFree)
  | [t], _ => by rw [nested, List.forall_mem_singleton]
  | t :: u :: ts, _ => by
    rw [isListFree_iff fun _ => rfl, List.forall_mem_cons (l := u :: ts), ← isListFree_nested (List.cons_ne_nil u ts)]
    exact List.forall_mem_cons.trans (and_congr_right fun _ => List.forall_mem_singleton)

theorem not_isListFree_of_isListOf (hop : ops.isOperator) (h : t.isListOf ops) : ¬ t.IsListFree := by
  obtain ⟨left, base, right, hn⟩ := node_of_isListOf h
  intro hfree
  have hnode := (everyNode_iff.mp hfree).1
  unfold isListFreeNode at hnode
  simp [hn, hop] at hnode

/-! ### What is left of lists -/

/-- What a flat term is unflattened to: applications only, nested as the lists say, unless a list has a run. -/
structure Nests (labels : LabelTable) (F U : Term) : Prop where
  undoes : Undoes labels F U
  listFree : U.IsListFree ↔ F.IsRunFree
  equal : F.IsRunFree → U == F.nestedForm

theorem nests_leaf (h : F.node.isLeaf) (hundoes : Undoes labels F F) : Nests labels F F := by
  have hord := isOrdinary_of_isLeaf h
  have hchildren := children_of_isLeaf h
  refine ⟨hundoes, ?_, fun _ => ?_⟩
  · rw [isListFree_iff hundoes.notList, isRunFree_iff hord, hchildren]
    exact iff_of_true (List.forall_mem_nil _) (List.forall_mem_nil _)
  · rw [nestedForm_of_isOrdinary hord, refilled_of_isLeaf h]
    exact BEq.refl F

theorem nests_ordinary (hord : F.IsOrdinary) (hU : U = F.refilled vs) (hchildren : U.children = vs)
    (hvs : List.Forall₂ (Nests labels) F.children vs) (hundoes : Undoes labels F U) : Nests labels F U := by
  have hfree : (∀ v ∈ vs, v.IsListFree) ↔ ∀ c ∈ F.children, c.IsRunFree := by
    constructor
    · intro h c hc
      obtain ⟨v, hv, hcv⟩ := PairedLists.exists_mem hvs hc
      exact hcv.listFree.mp (h v hv)
    · intro h v hv
      obtain ⟨c, hc, hcv⟩ := PairedLists.exists_mem hvs.flip hv
      exact hcv.listFree.mpr (h c hc)
  refine ⟨hundoes, ?_, fun hrun => ?_⟩
  · rw [isListFree_iff hundoes.notList, isRunFree_iff hord, hchildren, hfree]
  · rw [nestedForm_of_isOrdinary hord, hU]
    refine refilled_congr (BEq.refl F) (List.forall₂_map_right_iff.mpr ?_)
    exact PairedLists.imp_mem hvs.flip fun v _ c hc hcv => hcv.equal ((isRunFree_iff hord).mp hrun c hc)

theorem isRunFree_listOf (hpart : ∀ d ∈ w, isPart ops d) (hlen : 2 ≤ w.length) : (listOf ops w).IsRunFree ↔
    ¬ (ListParts.ofOperands ops w).HasRun ∧ ∀ c ∈ (listOf ops w).children, c.IsRunFree := by
  obtain ⟨left, base, right, hparts, heq⟩ := isListOf_listOf hpart hlen
  have hnode : (listOf ops w).isRunFreeNode ↔ ¬ (ListParts.ofOperands ops w).HasRun := by
    rw [heq, ← hparts, HasRun]
    simp [isRunFreeNode]
  have hframes : (listOf ops w).frames = [] := by rw [heq]; rfl
  rw [← hnode, IsRunFree, everyNode_iff, hframes]
  exact ⟨fun h => ⟨h.1, h.2.1⟩, fun h => ⟨h.1, h.2, List.forall_mem_nil _⟩⟩

section Lists
variable {l : String} {s : SortName} (hops : labels.operator? l s = some ops) (hpart : ∀ d ∈ w, isPart ops d)
  (hlist : (listOf ops w).isListOf ops) (hvs : List.Forall₂
    (fun c v => Serves labels ops c v ∧ (isPart ops c → Nests labels c v)) (listOf ops w).children vs)
include hops hpart hlist hvs

/-- The list that is made again has runs where the old one has. -/
theorem hasRun_iff : (ListParts.ofOperands ops vs).HasRun ↔ (ListParts.ofOperands ops w).HasRun := by
  have hop := isOperator_of_operator? hops
  have hserves : List.Forall₂ (Serves labels ops) (listOf ops w).children vs := hvs.imp fun _ _ hv => hv.1
  have htells := ListParts.tells_ofOperands hop hpart
  have htells' := ListParts.tells_ofOperands hop (isPart_of_serves hserves)
  have hunknowns : unknowns ops (ListParts.ofOperands ops w).children = unknowns ops vs := by
    rw [← children_listOf hpart hlist]
    exact PairedLists.map_eq (hserves.imp fun _ _ hv => hv.unresolved.symm)
  rw [← htells'.run, ListParts.ofOperands_ops, ← hunknowns]
  constructor
  · refine fun hsub => by_contra fun hrun => hrun ?_
    rwa [htells.kept hrun, ← ListParts.ofOperands_ops ops w, htells.run] at hsub
  · intro hrun
    have hbetween := htells.between hrun
    rw [ListParts.ofOperands_ops] at hbetween
    unfold ListParts.children
    rw [ListParts.unknowns_append, ListParts.unknowns_append]
    exact hbetween.trans ((List.sublist_append_left _ _).trans (List.sublist_append_right _ _))

/-- Without runs every operand is unflattened, and the parts of the new list are those operands. -/
theorem nests_of_not_hasRun (hrun : ¬ (ListParts.ofOperands ops w).HasRun) :
    List.Forall₂ (Nests labels) (listOf ops w).children vs ∧ (ListParts.ofOperands ops vs).children = vs := by
  have hop := isOperator_of_operator? hops
  have hserves : List.Forall₂ (Serves labels ops) (listOf ops w).children vs := hvs.imp fun _ _ hv => hv.1
  have hchildren : (listOf ops w).children = w :=
    (children_listOf hpart hlist).trans ((ListParts.tells_ofOperands hop hpart).kept hrun)
  refine ⟨PairedLists.imp_mem hvs fun c hc v _ hv => hv.2 (hpart c (hchildren ▸ hc)), ?_⟩
  exact (ListParts.tells_ofOperands hop (isPart_of_serves hserves)).kept
    fun hrun' => hrun ((hasRun_iff hops hpart hlist hvs).mp hrun')

/-- A list becomes nested applications, unless it has a run. -/
theorem nests_list (hlen : 2 ≤ w.length) (hundoes : Undoes labels (listOf ops w) (unflatNode (listOf ops vs))) :
    Nests labels (listOf ops w) (unflatNode (listOf ops vs)) := by
  have hop := isOperator_of_operator? hops
  have hserves : List.Forall₂ (Serves labels ops) (listOf ops w).children vs := hvs.imp fun _ _ hv => hv.1
  have hparts := isPart_of_serves hserves
  have hvlen : 2 ≤ vs.length := by
    rw [← hserves.length_eq, children_listOf hpart hlist]
    exact two_le_children hpart hlen
  have hne : (ListParts.ofOperands ops vs).children ≠ [] := by
    have htwo := two_le_children hparts hvlen
    rintro hnil
    simp [hnil] at htwo
  refine ⟨hundoes, ?_, fun hfree => ?_⟩
  · rw [unflatNode_listOf hops hparts hvlen, isListFree_nested hne, isRunFree_listOf hpart hlen]
    constructor
    · intro hfree
      have hrun : ¬ (ListParts.ofOperands ops w).HasRun := by
        rw [← hasRun_iff hops hpart hlist hvs]
        rintro ⟨c, hc, hclist⟩
        rw [ListParts.ofOperands_ops] at hclist
        exact not_isListFree_of_isListOf hop hclist (hfree c (by simp [ListParts.children, hc]))
      obtain ⟨hnests, hkept⟩ := nests_of_not_hasRun hops hpart hlist hvs hrun
      refine ⟨hrun, fun c hc => ?_⟩
      obtain ⟨v, hv, hcv⟩ := PairedLists.exists_mem hnests hc
      exact hcv.listFree.mp (hfree v (by rwa [hkept]))
    · rintro ⟨hrun, hfree⟩
      obtain ⟨hnests, hkept⟩ := nests_of_not_hasRun hops hpart hlist hvs hrun
      intro v hv
      rw [hkept] at hv
      obtain ⟨c, hc, hcv⟩ := PairedLists.exists_mem hnests.flip hv
      exact hcv.listFree.mpr (hfree c hc)
  · obtain ⟨hrun, hfree⟩ := (isRunFree_listOf hpart hlen).mp hfree
    obtain ⟨hnests, hkept⟩ := nests_of_not_hasRun hops hpart hlist hvs hrun
    obtain ⟨left, base, right, hn⟩ := node_of_isListOf hlist
    rw [unflatNode_listOf hops hparts hvlen, hkept, nestedForm_of_list hn]
    refine nested_congr (List.forall₂_map_right_iff.mpr ?_)
    exact PairedLists.imp_mem hnests.flip fun v _ c hc hcv => hcv.equal (hfree c hc)

end Lists

theorem follows_nests (labels : LabelTable) : Follows labels (Nests labels) where
  undoes h := h.undoes
  leaf := nests_leaf
  ordinary := nests_ordinary
  list hops hpart hlist hlen hvs hundoes := nests_list hops hpart hlist hvs hlen hundoes

/-- What is flattened and then unflattened has a list of a user operator left exactly if in some list known operands
stand between unknown ones; if none is left, every list has become the applications of its operator to its
operands. -/
theorem unflatten_flatten {sorts : String → SortName}
    (hunits : ∀ l e, labels.isAssociative l → labels.unit? l = some e → labels.isAssociative e = false)
    (ht : t.IsSyntax sorts) {n : Nat} (hn : AreHeap n [t]) :
    Gives n (fun k f => Gives k (fun _ u => (u.IsListFree ↔ f.IsRunFree) ∧ (f.IsRunFree → u == f.nestedForm))
      f.unflatten) (t.flatten labels) := by
  have hkeep : labels.UnitsKeep fun _ _ => True := fun l e _ hl he _ => ⟨hunits l e hl he, trivial⟩
  have hflat := ht.isFlat hkeep fun _ => trivial
  have hhas := World.has_ofHeap hn t List.mem_cons_self
  obtain ⟨f, w, hf, hw, -, hfhas, _, hfF, rfl⟩ := turns_flatten hkeep (fun _ => trivial) ht t (BEq.refl t) _ hhas
  refine ⟨f, w.next, hf, hw.1, ?_⟩
  obtain ⟨u, w', hu, hw', -, -, U, huU, hnests⟩ := turns_unflatten_of (follows_nests labels) hkeep hflat f hfF w hfhas
  have hrun : f.IsRunFree ↔ (t.flat labels).IsRunFree := ⟨isRunFree_congr hfF, isRunFree_congr (BEq.symm hfF)⟩
  have hlist : u.IsListFree ↔ U.IsListFree := ⟨isListFree_congr huU, isListFree_congr (BEq.symm huU)⟩
  refine ⟨u, w'.next, hu, hw'.1, ?_, fun hfree => ?_⟩
  · rw [hlist, hrun, hnests.listFree]
  · exact BEq.trans huU (BEq.trans (hnests.equal (hrun.mp hfree)) (nestedForm_congr (BEq.symm hfF)))

end Term

namespace LabelTable

/-- What is known stands before and after what is not. -/
theorem unflatten_flatten_fromLeft :
    (∀ l e, (statements ⟨"Empty"⟩).isAssociative l → (statements ⟨"Empty"⟩).unit? l = some e →
      (statements ⟨"Empty"⟩).isAssociative e = false) ∧
      fromLeft.IsSyntax (statements ⟨"Empty"⟩).declaredSort ∧ AreHeap 3 [fromLeft] ∧
      Gives 3 (fun k f => Gives k (fun _ u => (u.IsListFree ↔ f.IsRunFree) ∧ (f.IsRunFree → u == f.nestedForm))
        f.unflatten) (fromLeft.flatten (statements ⟨"Empty"⟩)) := by
  have hunits : ∀ l e, (statements ⟨"Empty"⟩).isAssociative l → (statements ⟨"Empty"⟩).unit? l = some e →
      (statements ⟨"Empty"⟩).isAssociative e = false := by
    intro l e hl he
    obtain rfl := eq_of_isAssociative hl
    cases he
    decide
  have hsyntax : fromLeft.IsSyntax (statements ⟨"Empty"⟩).declaredSort := by decide
  have hheap : AreHeap 3 [fromLeft] := by decide
  exact ⟨hunits, hsyntax, hheap, Term.unflatten_flatten hunits hsyntax hheap⟩

/-- The lists of statements. -/
def statementOps : CollectionOps := ⟨⟨"Stmts"⟩, "_;_", ".Stmts", none⟩

/-- A known statement between statements that are not known. -/
def amid : Term := andThen 2 rest (andThen 1 (.constant "skip") rest)

/-- The known statement is a list of its own in the list. -/
def amidFlat : Term :=
  ⟨⟨6, false⟩, .list statementOps [] [rest, ⟨⟨5, false⟩, .list statementOps [.constant "skip"] [] []⟩, rest] []⟩

/-- It is still one below the nested applications. -/
def amidNested : Term :=
  andThen 10 rest (andThen 9 ⟨⟨7, false⟩, .list statementOps [.constant "skip"] [] []⟩ rest)

/-- Known operands that stand between unknown ones are left as a list. -/
theorem exists_unflatten_list : ∃ (labels : LabelTable) (sorts : String → SortName) (t f u : Term),
    labels.UnitsFit sorts ∧ t.IsSyntax sorts ∧ AreHeap 3 [t] ∧ (t.flatten labels) 3 = (.ok f, 7) ∧
      f.unflatten 7 = (.ok u, 11) ∧ ¬ u.IsListFree ∧ (u == t) = false := by
  exact ⟨statements ⟨"Stmts"⟩, (statements ⟨"Stmts"⟩).declaredSort, amid, amidFlat, amidNested, unitsFit_statements,
    by decide, by decide, rfl, rfl, by decide, by decide⟩

end LabelTable

end RuleCompiler
