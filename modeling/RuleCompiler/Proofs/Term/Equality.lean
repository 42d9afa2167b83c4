import RuleCompiler.Proofs.PairedLists
import RuleCompiler.Term.Walk

/-! # Terms equal up to marks

`t == u` says that two terms are written the same, whichever nodes they are. Then their nodes have
one kind and one head, and their children are equal one by one (`beq_iff_mapChildren`), so what is
read off a node does not tell the two apart. -/

namespace RuleCompiler

/-! ### Nodes over other children -/

namespace Node
variable {α β : Type}

/-- The node with every child replaced. -/
def mapChildren (f : α → β) : Node α → Node β
  | app (.const l) args s => app (.const l) (args.map f) s
  | app (.freezer t) args s => app (.freezer (f t)) (args.map f) s
  | token s v => token s v
  | seq items frame => seq (items.map f) frame
  | list ops left base right => list ops (left.map f) (base.map f) (right.map f)
  | map ops entries base => map ops (entries.map fun e => (f e.1, f e.2)) (base.map f)
  | set ops elements base => set ops (elements.map f) (base.map f)
  | cells cs frames => cells (cs.map fun c => ⟨c.label, c.multiplicity, f c.content⟩) frames
  | var v => var v
  | hole => hole
  | labelValue l => labelValue l
  | rewrite l r => rewrite (f l) (f r)
  | disjunction bs => disjunction (bs.map fun b => (f b.1, b.2))
  | rightSides ts => rightSides (ts.map (Option.map f))

@[simp] theorem head_mapChildren (f : α → β) (n : Node α) : (n.mapChildren f).head = n.head := by
  cases n with
  | app l _ _ => cases l <;> simp [mapChildren, head]
  | cells cs fs =>
    have h : (cellSymbol ∘ fun c : CellOf α => (⟨c.label, c.multiplicity, f c.content⟩ : CellOf β)) =
        cellSymbol := rfl
    simp [mapChildren, head, h]
  | _ => simp [mapChildren, head, Function.comp_def]

@[simp] theorem children_mapChildren (f : α → β) (n : Node α) : (n.mapChildren f).children = n.children.map f := by
  cases n with
  | app l _ _ => cases l <;> simp [mapChildren, children]
  | map ops es base => simp [mapChildren, children, List.flatMap_map, List.map_flatMap]
  | rightSides ts =>
    simp only [mapChildren, children, List.filterMap_map, List.map_filterMap]
    rfl
  | _ => simp [mapChildren, children, Function.comp_def]

end Node

/-- Nodes of one kind with the same head, and with related children. -/
inductive Node.Alike {α : Type} (R : α → α → Prop) : Node α → Node α → Prop where
  | app {l : String} {as bs : List α} {s : SortName} (h : List.Forall₂ R as bs) :
      Alike R (.app (.const l) as s) (.app (.const l) bs s)
  | freezer {f g : α} {as bs : List α} {s : SortName} (hf : R f g) (h : List.Forall₂ R as bs) :
      Alike R (.app (.freezer f) as s) (.app (.freezer g) bs s)
  | token {s : SortName} {v : String} : Alike R (.token s v) (.token s v)
  | seq {as bs : List α} {frame : Option Var} (h : List.Forall₂ R as bs) :
      Alike R (.seq as frame) (.seq bs frame)
  | list {ops : CollectionOps} {ls ls' base base' rs rs' : List α} (hl : List.Forall₂ R ls ls')
      (hb : List.Forall₂ R base base') (hr : List.Forall₂ R rs rs') :
      Alike R (.list ops ls base rs) (.list ops ls' base' rs')
  | map {ops : CollectionOps} {es es' : List (α × α)} {base base' : List α}
      (he : List.Forall₂ (fun e e' => R e.1 e'.1 ∧ R e.2 e'.2) es es')
      (hb : List.Forall₂ R base base') : Alike R (.map ops es base) (.map ops es' base')
  | set {ops : CollectionOps} {es es' base base' : List α} (he : List.Forall₂ R es es')
      (hb : List.Forall₂ R base base') : Alike R (.set ops es base) (.set ops es' base')
  | cells {cs cs' : List (CellOf α)} {frames : List Var}
      (h : List.Forall₂ (fun c c' => c.label = c'.label ∧ c.multiplicity = c'.multiplicity ∧
        R c.content c'.content) cs cs') : Alike R (.cells cs frames) (.cells cs' frames)
  | var {v : Var} : Alike R (.var v) (.var v)
  | hole : Alike R .hole .hole
  | labelValue {l : String} : Alike R (.labelValue l) (.labelValue l)
  | rewrite {l l' r r' : α} (hl : R l l') (hr : R r r') : Alike R (.rewrite l r) (.rewrite l' r')
  | disjunction {bs bs' : List (α × RuleSet)}
      (h : List.Forall₂ (fun b b' => R b.1 b'.1 ∧ b.2 = b'.2) bs bs') :
      Alike R (.disjunction bs) (.disjunction bs')
  | rightSides {ts ts' : List (Option α)} (h : List.Forall₂ (Option.Rel R) ts ts') :
      Alike R (.rightSides ts) (.rightSides ts')

theorem Node.alike_of_mapChildren {α β : Type} {R : α → α → Prop} {f : α → β}
    (hR : ∀ a b, f a = f b → R a b) {m n : Node α} (h : m.mapChildren f = n.mapChildren f) :
    Alike R m n := by
  have hlist {as bs : List α} (h : as.map f = bs.map f) : List.Forall₂ R as bs :=
    PairedLists.of_map_eq hR h
  cases m with
  | app l as s =>
    cases n with
    | app l' bs s' =>
      cases l <;> cases l' <;> simp only [mapChildren, app.injEq, LabelOf.const.injEq,
        LabelOf.freezer.injEq, reduceCtorEq, false_and] at h
      · obtain ⟨rfl, h, rfl⟩ := h
        exact .app (hlist h)
      · obtain ⟨hf, h, rfl⟩ := h
        exact .freezer (hR _ _ hf) (hlist h)
    | _ => cases l <;> cases h
  | token s v =>
    cases n with
    | app l' => cases l' <;> cases h
    | token s' v' => cases h; exact .token
    | _ => cases h
  | seq as frame =>
    cases n with
    | app l' => cases l' <;> cases h
    | seq bs frame' =>
      simp only [mapChildren, seq.injEq] at h
      obtain ⟨h, rfl⟩ := h
      exact .seq (hlist h)
    | _ => cases h
  | list ops l b r =>
    cases n with
    | app l' => cases l' <;> cases h
    | list ops' l' b' r' =>
      simp only [mapChildren, list.injEq] at h
      obtain ⟨rfl, hl, hb, hr⟩ := h
      exact .list (hlist hl) (hlist hb) (hlist hr)
    | _ => cases h
  | map ops es b =>
    cases n with
    | app l' => cases l' <;> cases h
    | map ops' es' b' =>
      simp only [mapChildren, map.injEq] at h
      obtain ⟨rfl, he, hb⟩ := h
      refine .map (PairedLists.of_map_eq (fun e e' h => ?_) he) (hlist hb)
      rw [Prod.mk.injEq] at h
      exact ⟨hR _ _ h.1, hR _ _ h.2⟩
    | _ => cases h
  | set ops es b =>
    cases n with
    | app l' => cases l' <;> cases h
    | set ops' es' b' =>
      simp only [mapChildren, set.injEq] at h
      obtain ⟨rfl, he, hb⟩ := h
      exact .set (hlist he) (hlist hb)
    | _ => cases h
  | cells cs fs =>
    cases n with
    | app l' => cases l' <;> cases h
    | cells cs' fs' =>
      simp only [mapChildren, cells.injEq] at h
      obtain ⟨hc, rfl⟩ := h
      refine .cells (PairedLists.of_map_eq (fun c c' h => ?_) hc)
      rw [CellOf.mk.injEq] at h
      exact ⟨h.1, h.2.1, hR _ _ h.2.2⟩
    | _ => cases h
  | var v =>
    cases n with
    | app l' => cases l' <;> cases h
    | var v' => cases h; exact .var
    | _ => cases h
  | hole =>
    cases n with
    | app l' => cases l' <;> cases h
    | hole => exact .hole
    | _ => cases h
  | labelValue l =>
    cases n with
    | app l' => cases l' <;> cases h
    | labelValue l' => cases h; exact .labelValue
    | _ => cases h
  | rewrite l r =>
    cases n with
    | app l' => cases l' <;> cases h
    | rewrite l' r' =>
      simp only [mapChildren, rewrite.injEq] at h
      exact .rewrite (hR _ _ h.1) (hR _ _ h.2)
    | _ => cases h
  | disjunction bs =>
    cases n with
    | app l' => cases l' <;> cases h
    | disjunction bs' =>
      simp only [mapChildren, disjunction.injEq] at h
      refine .disjunction (PairedLists.of_map_eq (fun b b' h => ?_) h)
      rw [Prod.mk.injEq] at h
      exact ⟨hR _ _ h.1, h.2⟩
    | _ => cases h
  | rightSides ts =>
    cases n with
    | app l' => cases l' <;> cases h
    | rightSides ts' =>
      simp only [mapChildren, rightSides.injEq] at h
      refine .rightSides (PairedLists.of_map_eq (fun o o' h => ?_) h)
      cases o <;> cases o' <;> simp only [Option.map_none, Option.map_some, Option.some.injEq,
        reduceCtorEq] at h
      · exact .none
      · exact .some (hR _ _ h)
    | _ => cases h

namespace Node
variable {α : Type} {R : α → α → Prop} {m n : Node α}

theorem Alike.of_children (h : Alike (fun _ _ => True) m n) (hc : List.Forall₂ R m.children n.children) :
    Alike R m n := by
  cases h with
  | app => exact .app hc
  | freezer =>
    cases hc with
    | cons hf h => exact .freezer hf h
  | token => exact .token
  | seq => exact .seq hc
  | list hl hb _ =>
    obtain ⟨hl, hc⟩ := PairedLists.of_append hl.length_eq hc
    obtain ⟨hb, hr⟩ := PairedLists.of_append hb.length_eq hc
    exact .list hl hb hr
  | @map _ es es' _ _ he _ =>
    have hlen : (es.flatMap fun e => [e.1, e.2]).length = (es'.flatMap fun e => [e.1, e.2]).length := by
      simp [List.length_flatMap, he.length_eq]
    obtain ⟨hes, hb⟩ := PairedLists.of_append hlen hc
    refine .map ?_ hb
    clear hlen hc hb
    induction he with
    | nil => exact .nil
    | cons _ _ ih =>
      cases hes with
      | cons hk hes =>
        cases hes with
        | cons hv hes => exact .cons ⟨hk, hv⟩ (ih hes)
  | set he _ =>
    obtain ⟨he, hb⟩ := PairedLists.of_append he.length_eq hc
    exact .set he hb
  | cells h =>
    refine .cells ?_
    simp only [children, List.forall₂_map_left_iff, List.forall₂_map_right_iff] at hc
    exact List.forall₂_iff_zip.mpr ⟨h.length_eq, fun he => ⟨((List.forall₂_iff_zip.mp h).2 he).1,
      ((List.forall₂_iff_zip.mp h).2 he).2.1, (List.forall₂_iff_zip.mp hc).2 he⟩⟩
  | var => exact .var
  | hole => exact .hole
  | labelValue => exact .labelValue
  | rewrite =>
    cases hc with
    | cons hl h =>
      cases h with
      | cons hr _ => exact .rewrite hl hr
  | disjunction h =>
    refine .disjunction ?_
    simp only [children, List.forall₂_map_left_iff, List.forall₂_map_right_iff] at hc
    exact List.forall₂_iff_zip.mpr ⟨h.length_eq, fun he => ⟨(List.forall₂_iff_zip.mp hc).2 he,
      ((List.forall₂_iff_zip.mp h).2 he).2⟩⟩
  | rightSides h =>
    refine .rightSides ?_
    induction h with
    | nil => exact .nil
    | cons h _ ih =>
      cases h with
      | none => exact .cons .none (ih hc)
      | some _ =>
        cases hc with
        | cons h hc => exact .cons (.some h) (ih hc)

theorem Alike.imp {S : α → α → Prop} (h : Alike R m n) (hRS : ∀ a b, R a b → S a b) : Alike S m n := by
  cases h with
  | app h => exact .app (h.imp hRS)
  | freezer hf h => exact .freezer (hRS _ _ hf) (h.imp hRS)
  | token => exact .token
  | seq h => exact .seq (h.imp hRS)
  | list hl hb hr => exact .list (hl.imp hRS) (hb.imp hRS) (hr.imp hRS)
  | map he hb => exact .map (he.imp fun _ _ h => ⟨hRS _ _ h.1, hRS _ _ h.2⟩) (hb.imp hRS)
  | set he hb => exact .set (he.imp hRS) (hb.imp hRS)
  | cells h => exact .cells (h.imp fun _ _ h => ⟨h.1, h.2.1, hRS _ _ h.2.2⟩)
  | var => exact .var
  | hole => exact .hole
  | labelValue => exact .labelValue
  | rewrite hl hr => exact .rewrite (hRS _ _ hl) (hRS _ _ hr)
  | disjunction h => exact .disjunction (h.imp fun _ _ h => ⟨hRS _ _ h.1, h.2⟩)
  | rightSides h =>
    refine .rightSides (h.imp fun _ _ h => ?_)
    cases h with
    | none => exact .none
    | some h => exact .some (hRS _ _ h)

theorem Alike.children (h : Alike R m n) : List.Forall₂ R m.children n.children := by
  cases h with
  | app h => exact h
  | freezer hf h => exact .cons hf h
  | seq h => exact h
  | list hl hb hr => exact List.rel_append hl (List.rel_append hb hr)
  | map he hb =>
    refine List.rel_append ?_ hb
    clear hb
    induction he with
    | nil => exact .nil
    | cons he _ ih => exact .cons he.1 (.cons he.2 ih)
  | set he hb => exact List.rel_append he hb
  | cells h => exact List.forall₂_map_left_iff.mpr (List.forall₂_map_right_iff.mpr (h.imp fun _ _ h => h.2.2))
  | rewrite hl hr => exact .cons hl (.cons hr .nil)
  | disjunction h => exact List.forall₂_map_left_iff.mpr (List.forall₂_map_right_iff.mpr (h.imp fun _ _ h => h.1))
  | rightSides h =>
    induction h with
    | nil => exact .nil
    | cons h _ ih =>
      cases h with
      | none => exact ih
      | some h => exact .cons h ih
  | _ => exact .nil

theorem Alike.eq (h : Alike Eq m n) : m = n := by
  have hlist {β : Type} {S : β → β → Prop} {as bs : List β} (h : List.Forall₂ S as bs) (hS : ∀ a b, S a b → a = b) :
      as = bs := by
    have heq := h.imp hS
    rwa [List.forall₂_eq_eq_eq] at heq
  have hchildren {as bs : List α} (h : List.Forall₂ Eq as bs) : as = bs := hlist h fun _ _ => id
  cases h with
  | app h => rw [hchildren h]
  | freezer hf h => rw [hf, hchildren h]
  | seq h => rw [hchildren h]
  | list hl hb hr => rw [hchildren hl, hchildren hb, hchildren hr]
  | map he hb => rw [hlist he fun _ _ h => Prod.ext h.1 h.2, hchildren hb]
  | set he hb => rw [hchildren he, hchildren hb]
  | cells h =>
    rw [hlist h fun c c' h => ?_]
    obtain ⟨_, _, _⟩ := c
    obtain ⟨_, _, _⟩ := c'
    obtain ⟨rfl, rfl, rfl⟩ := h
    rfl
  | rewrite hl hr => rw [hl, hr]
  | disjunction h => rw [hlist h fun _ _ h => Prod.ext h.1 h.2]
  | rightSides h =>
    rw [hlist h fun _ _ h => ?_]
    cases h with
    | none => rfl
    | some h => rw [h]
  | _ => rfl

theorem Alike.isCanonical_eq (h : Alike R m n) : n.isCanonical = m.isCanonical := by
  cases h with
  | app h => cases h <;> rfl
  | @seq _ _ frame h => cases h <;> cases frame <;> rfl
  | _ => rfl

/-- Nodes with the same head are of one kind. -/
theorem Alike.of_head (h : m.head = n.head) : Alike (fun _ _ => True) m n := by
  refine alike_of_mapChildren (f := fun _ => ()) (fun _ _ _ => trivial) (eq_of_head_children ?_ ?_)
  · rw [head_mapChildren, head_mapChildren, h]
  · rw [children_mapChildren, children_mapChildren, List.map_const', List.map_const',
      length_children_of_head h]

/-- Nodes with the same head and related children are alike. -/
theorem alike_of_head (h : m.head = n.head) (hc : List.Forall₂ R m.children n.children) :
    Alike R m n :=
  (Alike.of_head h).of_children hc

end Node

namespace Term

theorem beq_iff_mapChildren {t u : Term} :
    t == u ↔ t.node.mapChildren code = u.node.mapChildren code := by
  rw [beq_iff, code_eq_iff]
  refine ⟨fun h => Node.eq_of_head_children ?_ ?_, fun h => ⟨?_, ?_⟩⟩
  · rw [Node.head_mapChildren, Node.head_mapChildren, h.1]
  · rw [Node.children_mapChildren, Node.children_mapChildren]
    exact h.2
  · rw [← Node.head_mapChildren code t.node, h, Node.head_mapChildren]
  · rw [children, children, ← Node.children_mapChildren, h, Node.children_mapChildren]

theorem beq_congr {t t' u u' : Term} (ht : t == t') (hu : u == u') : (t == u) = (t' == u') :=
  Bool.eq_iff_iff.mpr ⟨fun h => BEq.trans (BEq.trans (BEq.symm ht) h) hu,
    fun h => BEq.trans (BEq.trans ht h) (BEq.symm hu)⟩

/-- Equal terms have nodes that are alike, with equal children. -/
theorem alike_of_beq {t u : Term} (h : t == u) : Node.Alike (fun t u => t == u) t.node u.node :=
  Node.alike_of_mapChildren (fun _ _ => beq_iff.mpr) (beq_iff_mapChildren.mp h)

/-! ### What is read off a node -/

section Congruence
variable {t u : Term}

theorem asVar?_congr (h : t == u) : t.asVar? = u.asVar? := by
  have h := alike_of_beq h
  unfold asVar?
  generalize t.node = m, u.node = n at h
  cases h <;> rfl

theorem isHole_congr (h : t == u) : t.isHole = u.isHole := by
  have h := alike_of_beq h
  unfold isHole
  generalize t.node = m, u.node = n at h
  cases h <;> rfl

theorem isRewrite_congr (h : t == u) : t.isRewrite = u.isRewrite := by
  have h := alike_of_beq h
  unfold isRewrite
  generalize t.node = m, u.node = n at h
  cases h <;> rfl

theorem isVar_congr (h : t == u) : t.isVar = u.isVar := by
  have h := alike_of_beq h
  unfold isVar
  generalize t.node = m, u.node = n at h
  cases h <;> rfl

theorem sort_eq (t : Term) : t.sort = match t.node with
    | .app _ _ s | .token s _ => s
    | .list ops .. | .map ops .. | .set ops .. => ops.sort
    | .cells .. => .bag
    | .var v => v.sort
    | .labelValue _ => .kItem
    | .rewrite left _ => left.sort
    | .seq .. | .hole | .disjunction _ | .rightSides _ => .k := by
  obtain ⟨m, n⟩ := t
  cases n <;> rw [sort]

theorem sort_congr (h : t == u) : t.sort = u.sort := by
  induction t using Term.induction generalizing u with
  | h t ih =>
    have h := alike_of_beq h
    have hchild : ∀ c ∈ t.node.children, ∀ {u : Term}, c == u → c.sort = u.sort := ih
    rw [sort_eq, sort_eq]
    generalize t.node = m, u.node = n at h hchild
    cases h with
    | rewrite hl hr => exact hchild _ List.mem_cons_self hl
    | _ => rfl

theorem children_congr (h : t == u) : List.Forall₂ (fun t u : Term => t == u) t.children u.children :=
  PairedLists.of_map_eq (fun _ _ => beq_iff.mpr) (code_eq_iff.mp (beq_iff.mp h)).2

theorem frames_congr (h : t == u) : t.frames = u.frames := by
  have h := alike_of_beq h
  unfold frames
  generalize t.node = m, u.node = n at h
  cases h <;> rfl

end Congruence

/-! ### Sameness -/

theorem same_self (t : Term) : t.same t := by
  have hbeq : t == t := beq_iff.mpr rfl
  unfold same
  split
  · rename_i h
    rw [h, hbeq]
    rfl
  · rename_i h
    simp [h]

theorem allSame_self : ∀ ts : List Term, allSame ts ts
  | [] => rfl
  | t :: ts => by
    have ih := allSame_self ts
    unfold allSame at ih ⊢
    rw [List.zip_cons_cons, List.all_cons, ih, Bool.and_true]
    exact same_self t

/-! ### Nodes -/

theorem anyNode_eq (p : Term → Bool) (t : Term) :
    t.anyNode p = (p t || t.children.any (anyNode p) || t.frameTerms.any p) := by
  rw [anyNode, fold_eq, ← anyNode, List.any_map]
  rfl

/-- What equal nodes agree on they agree on for all nodes below. -/
theorem anyNode_congr {p : Term → Bool} (hp : ∀ {t u : Term}, t == u → p t = p u) {t u : Term} (h : t == u) :
    t.anyNode p = u.anyNode p := by
  induction t using Term.induction generalizing u with
  | h t ih =>
    have hchildren : t.children.any (anyNode p) = u.children.any (anyNode p) := by
      have hall := PairedLists.map_eq (PairedLists.imp_mem (children_congr h) fun c hc d _ hcd => ih c hc hcd)
      rw [← Function.id_comp (anyNode p), ← List.any_map, hall, List.any_map]
    rw [anyNode_eq, anyNode_eq, hp h, hchildren, frameTerms, frames_congr h, frameTerms]

theorem isDisjunction_congr {t u : Term} (h : t == u) : t.isDisjunction = u.isDisjunction := by
  have h := alike_of_beq h
  unfold isDisjunction
  generalize t.node = m, u.node = n at h
  cases h <;> rfl

theorem constLabel?_congr {t u : Term} (h : t == u) : t.constLabel? = u.constLabel? := by
  have h := alike_of_beq h
  unfold constLabel?
  generalize t.node = m, u.node = n at h
  cases h <;> rfl

theorem isGround_congr {t u : Term} (h : t == u) : t.isGround = u.isGround :=
  congrArg not (anyNode_congr isVar_congr h)

theorem hasRewrite_congr {t u : Term} (h : t == u) : t.hasRewrite = u.hasRewrite := anyNode_congr isRewrite_congr h

theorem hasDisjunction_congr {t u : Term} (h : t == u) : t.hasDisjunction = u.hasDisjunction :=
  anyNode_congr isDisjunction_congr h

theorem mentions_congr {t u : Term} (labels : List String) (h : t == u) : t.mentions labels = u.mentions labels :=
  anyNode_congr (fun h => by rw [constLabel?_congr h]) h

/-- Frames are not editable. -/
theorem touchesEditable_eq (t : Term) : t.touchesEditable = (t.isEditable || t.children.any touchesEditable) := by
  have hframes : t.frameTerms.any isEditable = false := by
    rw [frameTerms, List.any_map]
    exact List.any_eq_false.mpr fun _ _ => Bool.false_ne_true
  rw [touchesEditable, anyNode_eq, ← touchesEditable, hframes, Bool.or_false]

end Term

end RuleCompiler
