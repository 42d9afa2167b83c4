import RuleCompiler.Proofs.Builder.Has
import RuleCompiler.Proofs.Flattening.Flat
import RuleCompiler.Proofs.Sharing.Positions

/-! # Walks from the leaves up

A walk keeps a node if its children come back as the nodes that they were, and makes it anew if not. In a
world nodes of one number are equal, so the node that the walk visits is in both cases equal to the old
one over the new children. Flattening gives the flat term for this reason. -/

namespace RuleCompiler

open Build (Always Gives)
open Making (Makes)
open Term (Equal IsHeap IsNode)
open World (HasAll)

/-- Nodes that are the same in a world are equal. -/
theorem World.HasAll.equal_of_allSame {w : World} {ts us : List Term} (hts : w.HasAll ts) (hus : w.HasAll us)
    (hlen : ts.length = us.length) (h : Term.allSame ts us) : Equal us ts := by
  refine List.Forall₂.flip (PairedLists.of_zip hlen fun e he => ?_)
  obtain ⟨ht, hu⟩ := List.of_mem_zip he
  have hsame : e.1.same e.2 := List.all_eq_true.mp h e he
  exact BEq.symm (Term.beq_iff_expr.mpr ((hts _ ht).expr_eq_of_same (hus _ hu) hsame))

/-- The mark that makes a node editable keeps it in the world. -/
theorem World.Has.of_node {w : World} {t u : Term} (h : w.Has t) (hn : u.node = t.node)
    (hid : u.mark.id = t.mark.id) : w.Has u := by
  refine .intro u (fun hc => ?_) fun c hc => h.child ?_
  · rw [hid, Term.expr_of_node hn]
    refine h.node ?_
    rwa [Term.isCanonical, ← hn]
  · rwa [Term.children, ← hn]

namespace Term
variable {x visit : Term → Build Term} {P Q : Term → Prop} {w : World} {t u : Term}

/-- The term is equal to one of which `Q` holds. -/
def UpTo (Q : Term → Prop) (t : Term) : Prop := ∃ u, t == u ∧ Q u

/-- Wherever the term stands in a world, `x` turns it into one of which `Q` holds up to equality. -/
def Turns (x : Term → Build Term) (t : Term) (Q : Term → Prop) : Prop :=
  ∀ t', t' == t → ∀ w : World, w.Has t' → Makes w (x t') fun w' u => w'.Has u ∧ UpTo Q u

theorem UpTo.congr (h : t == u) (hu : UpTo Q u) : UpTo Q t :=
  hu.imp fun _ hv => ⟨BEq.trans h hv.1, hv.2⟩

theorem Turns.mono (h : Turns x t P) (hPQ : ∀ u, P u → UpTo Q u) : Turns x t Q :=
  fun t' ht w hw => Making.mono (h t' ht w hw) fun _ _ _ ⟨hu, v, huv, hv⟩ => ⟨hu, (hPQ v hv).congr huv⟩

/-- Terms are turned one after the other. -/
theorem makes_mapM_turns {cs ds : List Term} (hcd : Equal cs ds) :
    ∀ {Ps : List (Term → Prop)}, List.Forall₂ (Turns x) ds Ps → ∀ {w : World}, w.HasAll cs →
      Makes w (cs.mapM x) fun w' us =>
        w'.HasAll us ∧ ∃ vs, Equal us vs ∧ List.Forall₂ (fun P v => P v) Ps vs := by
  induction hcd with
  | nil =>
    intro Ps hd w _
    cases hd
    rw [List.mapM_nil]
    exact Making.pure ⟨HasAll.nil w, [], .nil, .nil⟩
  | cons hc _ ih =>
    intro Ps hd w hcs
    obtain ⟨hcs, hrest⟩ := List.forall_mem_cons.mp hcs
    cases hd with
    | cons hd hds =>
    rw [List.mapM_cons]
    refine Making.bind (hd _ hc w hcs) fun w' u hw hu => ?_
    obtain ⟨hu, v, huv, hv⟩ := hu
    refine Making.bind (ih hds (HasAll.mono hw hrest)) fun w'' us hw' hus => Making.pure ?_
    obtain ⟨hus, vs, heq, hvs⟩ := hus
    exact ⟨List.forall_mem_cons.mpr ⟨hu.mono hw', hus⟩, v :: vs, .cons huv heq, .cons hv hvs⟩

/-! ### Nodes made again -/

/-- Whether the node is a leaf, an application, a sequence or a list of a user operator. -/
def isTree (t : Term) : Bool :=
  match t.node with
  | .app .. | .seq .. => true
  | .list ops .. => ops.isOperator
  | n => n.isLeaf

theorem isTree_congr (h : t == u) : t.isTree = u.isTree := by
  have h := alike_of_beq h
  rw [isTree, isTree]
  generalize t.node = m, u.node = n at h
  cases h <;> rfl

theorem rebuild_of_isLeaf (h : t.node.isLeaf) (cs fs : List Term) : t.rebuild cs fs = pure t := by
  unfold rebuild
  cases ht : t.node <;> simp_all [Node.isLeaf]

theorem rebuild_list {ops : CollectionOps} {left base right : List Term} (hop : ops.isOperator)
    (hn : t.node = .list ops left base right) (cs fs : List Term) :
    t.rebuild cs fs = (do (← cs.foldlM ListParts.concat { ops }).build) := by
  have hsplit : cs = cs.take left.length ++ ((cs.drop left.length).take base.length ++
      (cs.drop left.length).drop base.length) := by
    rw [List.take_append_drop, List.take_append_drop]
  unfold rebuild
  rw [hn]
  simp only [hop, if_true, List.splitAt_eq]
  conv_rhs => rw [hsplit, List.foldlM_append, bind_assoc]
  simp only [List.foldlM_append, bind_assoc]

theorem makes_rebuild (htree : t.isTree) (ht : w.Has t) {cs fs : List Term} (hcs : w.HasAll cs)
    (hfs : w.HasAll fs) : Makes w (t.rebuild cs fs) World.Has := by
  unfold isTree at htree
  split at htree
  · rename_i label args s hn
    cases label with
    | const l =>
      rw [rebuild_app hn]
      exact makes_has hcs
    | freezer f =>
      cases cs with
      | nil =>
        have hnone : t.rebuild [] fs = pure t := by
          unfold rebuild
          rw [hn]
        rw [hnone]
        exact Making.pure ht
      | cons c cs =>
        rw [rebuild_freezer hn]
        exact makes_has hcs
  · rename_i hn
    rw [rebuild_seq hn]
    exact makes_sequence (hcs.append hfs)
  · rename_i hn
    rw [rebuild_list htree hn]
    exact ListParts.makes_list _ hcs
  · rw [rebuild_of_isLeaf htree]
    exact Making.pure ht

/-! ### The walk -/

section Walk
variable (hvisit : ∀ {w : World} {u : Term}, w.Has u → Makes w (visit u) World.Has)
  (hvar : ∀ {u : Term} {v : Var}, u.node = .var v → visit u = pure u)
include hvar

/-- Frames are no nodes, and a walk leaves them as they are. -/
theorem makes_frames (vs : List Var) (w : World) :
    Makes w (vs.mapM fun v => do
      let node ← (liftM (var v) : Build Term)
      return (node, ← visit node)) fun w' es =>
        List.Forall₂ (fun v e => w'.Has e.2 ∧ e.2.node = .var v) vs es := by
  refine Making.mapM (fun w w' v e hw he => ⟨he.1.mono hw, he.2⟩) fun v _ w' _ => ?_
  refine Making.bind (makes_new (n := .var v) (HasAll.nil w')) fun w'' u _ hu => ?_
  rw [hvar hu.2]
  exact Making.pure hu

include hvisit

/-- The node is visited over its new children, whether it is kept for them or made again. -/
theorem turns_replaceUp {Ps : List (Term → Prop)} (htree : t.isTree)
    (hc : List.Forall₂ (Turns (replaceUp visit)) t.children Ps)
    (hkept : ∀ vs, List.Forall₂ (fun P v => P v) Ps vs → Equal vs t.children →
      ∀ u, u == t → Always (visit u) (UpTo Q))
    (hmade : ∀ vs, List.Forall₂ (fun P v => P v) Ps vs → ∀ t' us fs, t' == t → Equal us vs →
      List.Forall₂ (fun v f => f.node = .var v) t.frames fs →
        Always (t'.rebuild us fs) fun r => ∀ u, u == r → Always (visit u) (UpTo Q)) :
    Turns (replaceUp visit) t Q := by
  intro t' ht w hw
  have hwalk : replaceUp visit t' = t'.update (t'.children.map (replaceUp visit)) visit >>= visit := by
    rw [replaceUp, fold_eq, ← replaceUp]
  -- what `update` gives is visited alike, be it kept or made
  refine hwalk ▸ Making.bind (P := fun w u => w.Has u ∧ Always (visit u) (UpTo Q)) ?_
    fun w' u _ hu => (hvisit hu.1).and_always hu.2
  unfold update
  refine Making.bind (makes_nextId w) fun w₁ start hw₁ _ => ?_
  rw [List.mapM_map]
  refine Making.bind (makes_mapM_turns (children_congr ht) hc (HasAll.children (hw.mono hw₁)))
    fun w₂ us hw₂ hturned => ?_
  obtain ⟨hus, vs, heq, hvs⟩ := hturned
  refine Making.bind (makes_frames hvar t'.frames w₂) fun w₃ es hw₃ hes => ?_
  have hw := hw.mono (World.le_trans hw₁ (World.le_trans hw₂ hw₃))
  have hus := hus.mono hw₃
  split
  · rename_i hsame
    rw [Bool.and_eq_true] at hsame
    have hlen : t'.children.length = us.length :=
      (children_congr ht).length_eq.trans (hc.length_eq.trans (hvs.length_eq.trans heq.length_eq.symm))
    have hkids := (HasAll.children hw).equal_of_allSame hus hlen hsame.1
    exact Making.pure ⟨hw, hkept vs hvs (heq.symm.trans (hkids.trans (children_congr ht))) t' ht⟩
  · have hfs : w₃.HasAll (es.map (·.2)) := by
      intro f hf
      obtain ⟨e, he, rfl⟩ := List.mem_map.mp hf
      obtain ⟨v, -, hv⟩ := PairedLists.exists_mem hes.flip he
      exact hv.1
    have hframes : List.Forall₂ (fun v f => f.node = .var v) t.frames (es.map (·.2)) := by
      rw [← frames_congr ht]
      exact List.forall₂_map_right_iff.mpr (hes.imp fun _ _ he => he.2)
    have hrebuild := (makes_rebuild (isTree_congr ht ▸ htree) hw hus hfs).and_always
      (hmade vs hvs t' us _ ht heq hframes)
    refine Making.bind hrebuild fun w₄ u _ hu => Making.pure ?_
    split
    · exact ⟨hu.1.of_node (makeEditable_node start u) (makeEditable_id start u),
        hu.2 _ (beq_of_node_eq (makeEditable_node start u))⟩
    · exact ⟨hu.1, hu.2 u (BEq.refl u)⟩

end Walk

/-! ### Ordinary nodes -/

/-- Whether the node is a leaf, an application, or a sequence as builders leave it. -/
def IsOrdinary (t : Term) : Prop :=
  match t.node with
  | .app .. => True
  | .seq items frame => SequenceParts.isProper ⟨items, frame⟩
  | n => n.isLeaf

theorem isOrdinary_of_isLeaf (h : t.node.isLeaf) : t.IsOrdinary := by
  unfold IsOrdinary
  cases ht : t.node <;> simp_all [Node.isLeaf]

theorem isOrdinary_of_app {label : Label} {args : List Term} {s : SortName} (hn : t.node = .app label args s) :
    t.IsOrdinary := by
  rw [IsOrdinary, hn]
  trivial

theorem HasProperItems.isOrdinary (h : t.HasProperItems) (hseq : SequenceParts.isPlain t = false) :
    t.IsOrdinary := by
  obtain ⟨items, frame, hn⟩ := SequenceParts.node_of_not_isPlain hseq
  rw [IsOrdinary, hn]
  exact h items frame hn

theorem IsSyntax.isOrdinary {sorts : String → SortName} (h : t.IsSyntax sorts) : t.IsOrdinary := by
  rcases h.cases with hn | ⟨l, args, hn⟩ | ⟨f, args, s, hn⟩ | ⟨items, frame, hn, -⟩
  · exact isOrdinary_of_isLeaf hn
  · exact isOrdinary_of_app hn
  · exact isOrdinary_of_app hn
  · exact h.hasProperItems.isOrdinary (by rw [SequenceParts.isPlain, hn])

namespace IsOrdinary

theorem cases (h : t.IsOrdinary) : t.node.isLeaf ∨ (∃ l args s, t.node = .app (.const l) args s) ∨
    (∃ f args s, t.node = .app (.freezer f) args s) ∨
      ∃ items frame, t.node = .seq items frame ∧ SequenceParts.isProper ⟨items, frame⟩ := by
  unfold IsOrdinary at h
  split at h
  · rename_i label args s hn
    cases label with
    | const l => exact .inr (.inl ⟨l, args, s, hn⟩)
    | freezer f => exact .inr (.inr (.inl ⟨f, args, s, hn⟩))
  · exact .inr (.inr (.inr ⟨_, _, ‹_›, h⟩))
  · exact .inl h

theorem isTree (h : t.IsOrdinary) : t.isTree := by
  unfold Term.isTree
  rcases h.cases with hn | ⟨l, args, s, hn⟩ | ⟨f, args, s, hn⟩ | ⟨items, frame, hn, -⟩
  · cases ht : t.node <;> simp_all [Node.isLeaf]
  all_goals rw [hn]

theorem hasProperItems (h : t.IsOrdinary) : t.HasProperItems := by
  intro items frame hn
  rwa [IsOrdinary, hn] at h

theorem congr (hu : u.IsOrdinary) (h : t == u) : t.IsOrdinary := by
  have hproper := hu.hasProperItems.congr h
  have halike := alike_of_beq h
  unfold HasProperItems at hproper
  unfold IsOrdinary at hu ⊢
  generalize t.node = m, u.node = n at hu halike hproper
  cases halike with
  | seq _ => exact hproper _ _ rfl
  | _ => exact hu

end IsOrdinary

theorem equal_frames {vs : List Var} {fs : List Term} (h : List.Forall₂ (fun v f => f.node = .var v) vs fs) :
    Equal (fs.flatMap sequenceItems) (vs.map fun v => canonical (.var v)) := by
  induction h with
  | nil => exact .nil
  | cons hf _ ih =>
    rw [List.flatMap_cons, sequenceItems, hf]
    exact .cons (beq_of_node_eq hf) ih

section Refilled
variable {below us fs : List Term} (h : t.IsOrdinary)
include h

/-- A node whose children are equal to its own is equal to itself. -/
theorem refilled_beq (hbelow : Equal below t.children) : t.refilled below == t := by
  rcases h.cases with hn | ⟨l, args, s, hn⟩ | ⟨f, args, s, hn⟩ | ⟨items, frame, hn, hproper⟩
  · rw [refilled_of_isLeaf hn]
    exact BEq.refl t
  · rw [children, hn] at hbelow
    rw [refilled_app hn]
    refine beq_of_alike ?_
    rw [hn]
    exact .app hbelow
  · rw [children, hn] at hbelow
    cases hbelow with
    | @cons f' _ args' _ hf hargs =>
    rw [refilled_frozen hn]
    refine beq_of_alike ?_
    rw [hn]
    exact .freezer hf hargs
  · rw [children, hn] at hbelow
    rw [refilled_seq hn]
    have hitems : Equal (below.flatMap sequenceItems) (items.flatMap sequenceItems) :=
      List.rel_flatMap hbelow fun _ _ h => sequenceItems_congr h
    rw [flatMap_sequenceItems (SequenceParts.isProper_iff.mp hproper).1] at hitems
    have hself := h.hasProperItems.beq_sequenceOf
    rw [sequenceItems, hn] at hself
    exact BEq.trans (sequenceOf_congr (hitems.append (.refl _))) (BEq.symm hself)

/-- A node is made again as builders make it. -/
theorem always_refilled (hbelow : SequenceParts.isPlain t = false → ∀ c ∈ below, c.HasProperItems)
    (hlen : below.length = t.children.length)
    (hus : Equal us below) (hfs : List.Forall₂ (fun v f => f.node = .var v) t.frames fs) :
    Always (t.rebuild us fs) (· == t.refilled below) := by
  rcases h.cases with hn | ⟨l, args, s, hn⟩ | ⟨f, args, s, hn⟩ | ⟨items, frame, hn, hproper⟩
  · rw [refilled_of_isLeaf hn, rebuild_of_isLeaf hn]
    exact .pure (BEq.refl t)
  · rw [rebuild_app hn, refilled_app hn]
    exact (always_new _).mono fun u hu => beq_of_alike (hu ▸ .app hus)
  · have hne : below ≠ [] := by
      rintro rfl
      rw [children, hn] at hlen
      cases hlen
    obtain ⟨f', args', rfl⟩ := List.exists_cons_of_ne_nil hne
    cases hus with
    | cons hf hargs =>
    rw [rebuild_freezer hn, refilled_frozen hn]
    exact (always_new _).mono fun u hu => beq_of_alike (hu ▸ .freezer hf hargs)
  · rw [frames, hn] at hfs
    rw [rebuild_seq hn, refilled_seq hn]
    refine (always_sequence fun c hc => ?_).mono fun u hu => BEq.trans hu (sequenceOf_congr ?_)
    · rcases List.mem_append.mp hc with hc | hc
      · obtain ⟨d, hd, hcd⟩ := PairedLists.exists_mem hus hc
        exact (hbelow (by rw [SequenceParts.isPlain, hn]) d hd).congr hcd
      · obtain ⟨v, -, hv⟩ := PairedLists.exists_mem hfs.flip hc
        refine hasProperItems_of_isPlain ?_
        rw [SequenceParts.isPlain, hv]
    · rw [List.flatMap_append]
      exact Equal.append (List.rel_flatMap hus fun _ _ h => sequenceItems_congr h) (equal_frames hfs)

end Refilled

section Walk
variable (hvisit : ∀ {w : World} {u : Term}, w.Has u → Makes w (visit u) World.Has)
  (hvar : ∀ {u : Term} {v : Var}, u.node = .var v → visit u = pure u)
include hvar hvisit

/-- An ordinary node is visited with its new children in it. -/
theorem turns_ordinary {Ps : List (Term → Prop)} (h : t.IsOrdinary)
    (hc : List.Forall₂ (Turns (replaceUp visit)) t.children Ps)
    (hproper : SequenceParts.isPlain t = false → ∀ P ∈ Ps, ∀ u, P u → u.HasProperItems)
    (hmade : ∀ vs, List.Forall₂ (fun P v => P v) Ps vs → ∀ u, u == t.refilled vs →
      Always (visit u) (UpTo Q)) : Turns (replaceUp visit) t Q := by
  refine turns_replaceUp hvisit hvar h.isTree hc (fun vs hvs hsame u hu => ?_)
    fun vs hvs t' us fs ht hus hfs => ?_
  · exact hmade vs hvs u (BEq.trans hu (BEq.symm (refilled_beq h hsame)))
  · rw [← frames_congr ht] at hfs
    refine (always_refilled (h.congr ht) (fun hseq c hc => ?_) ?_ hus hfs).mono fun r hr u hu => hmade vs hvs u ?_
    · obtain ⟨P, hP, hc⟩ := PairedLists.exists_mem hvs.flip hc
      exact hproper (SequenceParts.isPlain_congr ht ▸ hseq) P hP c hc
    · rw [← hvs.length_eq, ← hc.length_eq, (children_congr ht).length_eq]
    · exact BEq.trans hu (BEq.trans hr (refilled_congr ht (Equal.refl vs)))

end Walk

/-! ### Flattening -/

section Flatten
variable {labels : LabelTable} {sorts : String → SortName}

theorem flattenNode_of_var {v : Var} (hn : t.node = .var v) : flattenNode labels t = pure t := by
  unfold flattenNode
  rw [hn]

/-- One node is flattened as the flat operands of its arguments say. -/
theorem always_flattenNode {r : Term} (hur : u == r)
    (hargs : ∀ l args s ops, r.node = .app (.const l) args s → labels.operator? l s = some ops →
      ∀ c ∈ args, c.HasOperands ops) :
    Always (flattenNode labels u) (· == flatNode labels r) := by
  have hself := hur
  have halike := alike_of_beq hur
  unfold flattenNode flatNode
  generalize hm : r.node = m at halike hargs
  generalize u.node = k at halike
  cases halike with
  | @app l args args' s h =>
    dsimp only
    cases hops : labels.operator? l s with
    | none => exact .pure hself
    | some ops =>
      have hop : ops.isOperator := by
        obtain ⟨-, rfl⟩ := operator?_cases hops
        rfl
      exact always_listOf hop h (hargs l args' s ops rfl hops)
  | _ => exact .pure hself

/-- The arguments that an associative label is given are flat. -/
theorem isFlat_of_refilled {P : String → SortName → Prop} (hunits : labels.UnitsKeep P)
    (hP : ∀ l, P l (sorts l)) (h : t.IsSyntax sorts) {l : String} {args : List Term} {s : SortName}
    (hn : (t.refilled (t.children.map (flat labels))).node = .app (.const l) args s)
    (hl : labels.isAssociative l) : ∀ c ∈ args, IsFlat labels P c := by
  have hchildren : ∀ c ∈ t.children.map (flat labels), IsFlat labels P c :=
    List.forall_mem_map.mpr fun c hc => (h.child hc).isFlat hunits hP
  rcases h.cases with ht | ⟨l', args', ht⟩ | ⟨f, args', s', ht⟩ | ⟨items, frame, ht, -⟩
  · rw [refilled_of_isLeaf ht] at hn
    rw [hn] at ht
    cases ht
  · rw [refilled_app ht] at hn
    cases hn
    exact hchildren
  · rw [children, ht, Node.children, List.map_cons, refilled_frozen ht] at hn
    cases hn
  · rw [refilled_flat ht] at hn
    have hflat := isFlat_flatItems fun c hc => (h.sequenceItems c hc).isFlat hunits hP
    rw [((hflat.of_app hn).2 hl).1]
    exact List.forall_mem_nil _

/-- In every world flattening a term gives the flat term. -/
theorem turns_flatten {P : String → SortName → Prop} (hunits : labels.UnitsKeep P) (hP : ∀ l, P l (sorts l))
    (h : t.IsSyntax sorts) : Turns (flatten labels) t (· = t.flat labels) := by
  induction t using Term.induction with
  | h t ih =>
    have hchildren : List.Forall₂ (Turns (flatten labels)) t.children
        (t.children.map fun c u => u = c.flat labels) :=
      List.forall₂_map_right_iff.mpr (List.forall₂_same.mpr fun c hc => ih c hc (h.child hc))
    refine turns_ordinary (makes_flattenNode labels) flattenNode_of_var h.isOrdinary hchildren ?_
      fun vs hvs u hu => ?_
    · simp only [List.mem_map, forall_exists_index, and_imp, forall_apply_eq_imp_iff₂, forall_eq]
      exact fun _ c hc => ((h.child hc).isFlat hunits hP).hasProperItems
    · obtain rfl : vs = t.children.map (flat labels) := by
        have heq := List.forall₂_map_right_iff.mpr (List.forall₂_map_left_iff.mp hvs).flip
        rwa [List.forall₂_eq_eq_eq] at heq
      refine (always_flattenNode hu fun l args s ops hn hops c hc => ?_).mono fun v hv => ⟨_, hv, ?_⟩
      · exact (isFlat_of_refilled hunits hP h hn (operator?_cases hops).1 c hc).hasOperands ops
      · rw [flat_eq]

theorem isNode_of_mem_nodes (h : u ∈ t.nodes) : IsNode [t] u := by
  induction t using Term.induction with
  | h t ih =>
    rw [nodes_eq] at h
    rcases List.mem_cons.mp h with rfl | h
    · exact isNode_single.mpr (.inl rfl)
    · obtain ⟨c, hc, h⟩ := List.mem_flatMap.mp h
      exact isNode_single.mpr (.inr (isNode_iff.mpr ⟨c, hc, ih c hc h⟩))

theorem IsHeap.areHeap {n : Nat} (h : IsHeap n [t]) : AreHeap n [t] := by
  intro a ha hc
  rw [List.flatMap_singleton] at ha ⊢
  have ha := isNode_of_mem_nodes ha
  refine ⟨h.id_lt ha hc, fun b hb hc' hid => ?_⟩
  rw [h.eq_of_id (isNode_of_mem_nodes hb) ha hc' hc hid]
  exact BEq.refl a

theorem gives_flatten {n : Nat} (hunits : labels.UnitsFit sorts) (hheap : IsHeap n [t]) (h : t.IsSyntax sorts) :
    Gives n (fun _ u => u == t.flat labels) (t.flatten labels) := by
  have hhas := World.has_ofHeap hheap.areHeap t List.mem_cons_self
  obtain ⟨u, w, hrun, hw, -, -, v, huv, rfl⟩ :=
    turns_flatten hunits.keep (fun _ => rfl) h t (BEq.refl t) _ hhas
  exact ⟨u, w.next, hrun, hw.1, huv⟩

end Flatten

end Term

end RuleCompiler
