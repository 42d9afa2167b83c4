import RuleCompiler.Proofs.Term.Equality

/-! # Expressions

What a term says when only variables, tokens and applications are looked into. Two terms are equal
when they say the same (`beq_iff_expr`), so everything that depends on what is written down can be
stated of expressions, without nodes and their marks. -/

namespace RuleCompiler

inductive Expr where
  | var (v : Var)
  | token (s : SortName) (value : String)
  | app (label : String) (args : List Expr) (sort : SortName)
  /-- Any other term, as it is written down. -/
  | data (code : List Symbol) (sort : SortName)
deriving Inhabited

namespace Expr

/-- Induction from the arguments of an application to the application. -/
theorem induction {P : Expr → Prop} (var : ∀ v, P (var v)) (token : ∀ s x, P (token s x))
    (app : ∀ l as s, (∀ a ∈ as, P a) → P (app l as s)) (data : ∀ c s, P (data c s)) (t : Expr) :
    P t :=
  @Expr.rec P (fun as => ∀ a ∈ as, P a) var token app data (List.forall_mem_nil P)
    (fun _ _ ih ihs => List.forall_mem_cons.mpr ⟨ih, ihs⟩) t

def sort : Expr → SortName
  | var v => v.sort
  | token s _ | app _ _ s | data _ s => s

/-- Every occurrence of a variable, from left to right. -/
def vars : Expr → List Var
  | var v => [v]
  | app _ as _ => as.flatMap vars
  | token .. | data .. => []

/-- Variables replaced as `θ` says. -/
def subst (θ : Var → Expr) : Expr → Expr
  | var v => θ v
  | app l as s => app l (as.map (subst θ)) s
  | token s x => token s x
  | data c s => data c s

@[simp] theorem vars_var (v : Var) : (var v).vars = [v] := by rw [vars]

@[simp] theorem vars_token (s : SortName) (x : String) : (token s x).vars = [] := by rw [vars]

@[simp] theorem vars_app (l : String) (as : List Expr) (s : SortName) :
    (app l as s).vars = as.flatMap vars := by rw [vars]

@[simp] theorem vars_data (c : List Symbol) (s : SortName) : (data c s).vars = [] := by rw [vars]

section Subst
variable {θ θ' : Var → Expr}

@[simp] theorem subst_var (v : Var) : (var v).subst θ = θ v := by rw [subst]

@[simp] theorem subst_token (s : SortName) (x : String) : (token s x).subst θ = token s x := by
  rw [subst]

@[simp] theorem subst_app (l : String) (as : List Expr) (s : SortName) :
    (app l as s).subst θ = app l (as.map (subst θ)) s := by rw [subst]

@[simp] theorem subst_data (c : List Symbol) (s : SortName) : (data c s).subst θ = data c s := by
  rw [subst]

theorem subst_congr {t : Expr} (h : ∀ v ∈ t.vars, θ v = θ' v) : t.subst θ = t.subst θ' := by
  induction t using induction with
  | var v => simpa using h
  | app l as s ih =>
    simp only [vars_app, List.mem_flatMap, forall_exists_index, and_imp] at h
    rw [subst_app, subst_app, List.map_congr_left fun a ha => ih a ha fun v hv => h v a ha hv]
  | _ => simp

/-- The variables that stay where they are do not change a term. -/
theorem subst_id {t : Expr} (h : ∀ v ∈ t.vars, θ v = var v) : t.subst θ = t := by
  induction t using induction with
  | var v => simpa using h
  | app l as s ih =>
    simp only [vars_app, List.mem_flatMap, forall_exists_index, and_imp] at h
    have hargs : as.map (subst θ) = as.map id :=
      List.map_congr_left fun a ha => ih a ha fun v hv => h v a ha hv
    rw [subst_app, hargs, List.map_id]
  | _ => simp

theorem subst_of_ground {t : Expr} (h : t.vars = []) (θ : Var → Expr) : t.subst θ = t :=
  subst_id fun v hv => by simp [h] at hv

theorem subst_subst (t : Expr) : (t.subst θ).subst θ' = t.subst fun v => (θ v).subst θ' := by
  induction t using induction with
  | app l as s ih =>
    rw [subst_app, subst_app, subst_app, List.map_map]
    exact congrArg (app l · s) (List.map_congr_left ih)
  | _ => simp

theorem mem_vars_subst {t : Expr} {w : Var} :
    w ∈ (t.subst θ).vars ↔ ∃ v ∈ t.vars, w ∈ (θ v).vars := by
  induction t using induction with
  | app l as s ih =>
    simp only [subst_app, vars_app, List.mem_flatMap, List.mem_map, exists_exists_and_eq_and]
    constructor
    · rintro ⟨a, ha, hw⟩
      obtain ⟨v, hv, hw⟩ := (ih a ha).mp hw
      exact ⟨v, ⟨a, ha, hv⟩, hw⟩
    · rintro ⟨v, ⟨a, ha, hv⟩, hw⟩
      exact ⟨a, ha, (ih a ha).mpr ⟨v, hv, hw⟩⟩
  | _ => simp

end Subst

/-- Every application in the term satisfies `q`. -/
inductive All (q : String → List Expr → SortName → Prop) : Expr → Prop where
  | var (v : Var) : All q (.var v)
  | token (s : SortName) (x : String) : All q (.token s x)
  | app {l : String} {as : List Expr} {s : SortName} (h : q l as s) (hs : ∀ a ∈ as, All q a) :
      All q (.app l as s)
  | data (c : List Symbol) (s : SortName) : All q (.data c s)

section All
variable {q : String → List Expr → SortName → Prop} {l : String} {as : List Expr} {s : SortName}

theorem All.top (h : (Expr.app l as s).All q) : q l as s := by
  cases h with
  | app h _ => exact h

theorem All.arg (h : (Expr.app l as s).All q) : ∀ a ∈ as, a.All q := by
  cases h with
  | app _ hs => exact hs

end All

/-! ### Instances that fit -/

/-- The instance of `p` is `t`, and variables stand for terms of their sorts. -/
def Fits (θ : Var → Expr) (p t : Expr) : Prop :=
  p.subst θ = t ∧ ∀ v ∈ p.vars, (θ v).sort.subsortOf v.sort

end Expr

namespace Term

/-- What a term says. -/
def expr : Term → Expr :=
  fold fun t below => match t.node with
    | .var v => .var v
    | .token s x => .token s x
    | .app (.const l) _ s => .app l below s
    | _ => .data t.code t.sort

theorem expr_eq (t : Term) : t.expr = match t.node with
    | .var v => .var v
    | .token s x => .token s x
    | .app (.const l) args s => .app l (args.map expr) s
    | _ => .data t.code t.sort := by
  rw [expr, fold_eq, ← expr, children]
  cases t.node with
  | app l args s => cases l <;> rfl
  | _ => rfl

section Forms
variable {t u : Term}

theorem expr_of_var {v : Var} (h : t.node = .var v) : t.expr = .var v := by rw [expr_eq, h]

theorem expr_of_token {s : SortName} {x : String} (h : t.node = .token s x) :
    t.expr = .token s x := by rw [expr_eq, h]

theorem expr_of_app {l : String} {args : List Term} {s : SortName}
    (h : t.node = .app (.const l) args s) : t.expr = .app l (args.map expr) s := by rw [expr_eq, h]

theorem node_of_expr_var {v : Var} (h : t.expr = .var v) : t.node = .var v := by
  rw [expr_eq] at h
  split at h <;> simp_all

theorem node_of_expr_token {s : SortName} {x : String} (h : t.expr = .token s x) :
    t.node = .token s x := by
  rw [expr_eq] at h
  split at h <;> simp_all

theorem node_of_expr_app {l : String} {es : List Expr} {s : SortName} (h : t.expr = .app l es s) :
    ∃ args, t.node = .app (.const l) args s ∧ args.map expr = es := by
  rw [expr_eq] at h
  split at h <;> simp_all

theorem sort_expr (t : Term) : t.expr.sort = t.sort := by
  have hsort := t.sort_eq
  rw [expr_eq]
  cases hn : t.node with
  | app l args s => cases l <;> simp [Expr.sort, hsort, hn]
  | _ => simp [Expr.sort, hsort, hn]

/-- Only the node counts. -/
theorem expr_of_node (h : t.node = u.node) : t.expr = u.expr := by
  have hcode : t.code = u.code := by rw [code_eq, code_eq u, children, children, h]
  rw [expr_eq, expr_eq u, h, hcode, sort_eq, sort_eq u, h]

/-- Equal terms are those that say the same. -/
theorem beq_iff_expr : t == u ↔ t.expr = u.expr := by
  constructor
  · induction t using Term.induction generalizing u with
    | h t ih =>
      intro h
      have hcode := beq_iff.mp h
      have hsort := sort_congr h
      have hnode := alike_of_beq h
      rw [expr_eq, expr_eq, hcode, hsort]
      have hchild : ∀ c ∈ t.node.children, ∀ {u : Term}, c == u → c.expr = u.expr := ih
      generalize t.node = m, u.node = n at hnode hchild
      cases hnode with
      | @app l as bs s h =>
        have hargs : as.map expr = bs.map expr := by
          refine PairedLists.map_eq (PairedLists.imp_mem h fun a ha b _ hab => hchild a ha hab)
        simp only [hargs]
      | _ => rfl
  · induction t using Term.induction generalizing u with
    | h t ih =>
      intro h
      rw [expr_eq t] at h
      split at h
      · rename_i v hn
        rw [beq_iff_mapChildren, hn, node_of_expr_var h.symm]
      · rename_i s x hn
        rw [beq_iff_mapChildren, hn, node_of_expr_token h.symm]
      · rename_i l args s hn
        obtain ⟨args', hn', h'⟩ := node_of_expr_app h.symm
        rw [beq_iff_mapChildren, hn, hn']
        have hargs : List.Forall₂ (fun a b : Term => a.expr = b.expr) args args' :=
          PairedLists.of_map_eq (fun _ _ h => h) h'.symm
        have hcodes : args.map code = args'.map code := by
          refine PairedLists.map_eq (PairedLists.imp_mem hargs fun a ha b _ hab => ?_)
          refine beq_iff.mp (ih a ?_ hab)
          rw [children, hn]
          exact ha
        simp only [Node.mapChildren, hcodes]
      · rename_i hvar htoken happ
        rw [expr_eq u] at h
        split at h
        · cases h
        · cases h
        · cases h
        · exact beq_iff.mpr (Expr.data.inj h).1

end Forms

/-! ### Ground terms -/

theorem isGround_iff {t : Term} :
    t.isGround ↔ t.isVar = false ∧ (∀ c ∈ t.children, c.isGround) ∧ t.frames = [] := by
  rw [isGround, anyNode_eq, Bool.not_eq_true', Bool.or_eq_false_iff, Bool.or_eq_false_iff,
    List.any_eq_false, List.any_eq_false, and_assoc]
  refine and_congr_right fun _ => and_congr ?_ ?_
  · simp [isGround]
  · rw [List.eq_nil_iff_forall_not_mem]
    simp [frameTerms, isVar, Node.isVar]

theorem vars_eq (t : Term) : t.vars = match t.node with
    | .var v => [v]
    | _ => t.children.flatMap vars ++ t.frames := by
  rw [vars, fold_eq, ← vars]
  cases t.node <;> rfl

theorem isGround_iff_vars (t : Term) : t.isGround ↔ t.vars = [] := by
  induction t using Term.induction with
  | h t ih =>
    rw [isGround_iff, vars_eq, isVar]
    cases t.node with
    | var v => simp [Node.isVar]
    | _ =>
      simp only [Node.isVar, true_and, List.append_eq_nil_iff, List.flatMap_eq_nil_iff]
      exact and_congr_left fun _ => forall₂_congr ih

theorem isGround_of_isCanonical {t : Term} (h : t.isCanonical) : t.isGround := by
  rw [isGround_iff, isVar, children, frames]
  unfold isCanonical Node.isCanonical at h
  split at h <;> simp_all [Node.isVar, Node.children, Node.frames]

theorem vars_of_not_isVar {t : Term} (h : t.isVar = false) :
    t.vars = t.children.flatMap vars ++ t.frames := by
  rw [vars_eq]
  split
  · rename_i hn
    rw [isVar, hn] at h
    cases h
  · rfl

theorem vars_of_var {t : Term} {v : Var} (hn : t.node = .var v) : t.vars = [v] := by rw [vars_eq, hn]

theorem vars_child {t c : Term} (hc : c ∈ t.children) : c.vars ⊆ t.vars := by
  intro v hv
  rw [vars_eq]
  split
  · rename_i hn
    rw [children, hn] at hc
    cases hc
  · exact List.mem_append_left _ (List.mem_flatMap.mpr ⟨c, hc, hv⟩)

theorem vars_congr {t u : Term} (h : t == u) : t.vars = u.vars := by
  induction t using Term.induction generalizing u with
  | h t ih =>
    have hvars : t.children.flatMap vars = u.children.flatMap vars := by
      have hmap : t.children.map vars = u.children.map vars :=
        PairedLists.map_eq (PairedLists.imp_mem (children_congr h) fun c hc _ _ h => ih c hc h)
      rw [List.flatMap, hmap, ← List.flatMap]
    have halike := alike_of_beq h
    rw [vars_eq, vars_eq, hvars, frames_congr h]
    generalize t.node = m, u.node = n at halike
    cases halike <;> rfl

/-! ### First-order terms -/

section FirstOrder
variable {D : Term → Bool} {t : Term}

/-- Whether variables stand under applications only: what is none of variable, token and application
is ground, and `D` accepts it. -/
def isFirstOrder (D : Term → Bool) : Term → Bool :=
  fold fun t below => match t.node with
    | .var _ | .token .. => true
    | .app (.const _) .. => below.all id
    | _ => t.isGround && D t

theorem isFirstOrder_eq (t : Term) : t.isFirstOrder D = match t.node with
    | .var _ | .token .. => true
    | .app (.const _) args _ => args.all (isFirstOrder D)
    | _ => t.isGround && D t := by
  rw [isFirstOrder, fold_eq, ← isFirstOrder, children]
  cases t.node with
  | app l args s =>
    cases l with
    | const l =>
      dsimp only [Node.children]
      rw [List.all_map]
      rfl
    | freezer f => rfl
  | _ => rfl

/-- First-order terms without other data have variables, tokens and applications only. -/
theorem anyNode_of_isFirstOrder (h : t.isFirstOrder fun _ => false) {p : Term → Bool}
    (hp : ∀ u, (∃ v, u.node = .var v) ∨ (∃ s x, u.node = .token s x) ∨
      (∃ l args s, u.node = .app (.const l) args s) → p u = false) : t.anyNode p = false := by
  induction t using Term.induction with
  | h t ih =>
    rw [anyNode_eq, Bool.or_eq_false_iff, Bool.or_eq_false_iff, List.any_eq_false]
    rw [isFirstOrder_eq] at h
    split at h
    · rename_i v hn
      have hframes : t.frameTerms = [] := by rw [frameTerms, frames, hn]; rfl
      refine ⟨⟨hp t (.inl ⟨v, hn⟩), fun c hc => ?_⟩, by rw [hframes]; rfl⟩
      rw [children, hn] at hc
      cases hc
    · rename_i s x hn
      have hframes : t.frameTerms = [] := by rw [frameTerms, frames, hn]; rfl
      refine ⟨⟨hp t (.inr (.inl ⟨s, x, hn⟩)), fun c hc => ?_⟩, by rw [hframes]; rfl⟩
      rw [children, hn] at hc
      cases hc
    · rename_i l args s hn
      have hframes : t.frameTerms = [] := by rw [frameTerms, frames, hn]; rfl
      have hchildren : t.children = args := by rw [children, hn]; rfl
      refine ⟨⟨hp t (.inr (.inr ⟨l, args, s, hn⟩)), fun c hc => ?_⟩, by rw [hframes]; rfl⟩
      rw [ih c hc (List.all_eq_true.mp h c (hchildren ▸ hc))]
      exact Bool.false_ne_true
    · rw [Bool.and_false] at h
      cases h

theorem isFirstOrder_app {l : String} {args : List Term} {s : SortName}
    (hn : t.node = .app (.const l) args s) :
    t.isFirstOrder D ↔ ∀ a ∈ args, a.isFirstOrder D := by
  rw [isFirstOrder_eq, hn]
  simp

theorem vars_expr (h : t.isFirstOrder D) : t.expr.vars = t.vars := by
  induction t using Term.induction with
  | h t ih =>
    have hvars := t.vars_eq
    rw [expr_eq]
    split
    · rename_i hn
      rw [hvars, hn, Expr.vars_var]
    · rename_i hn
      rw [hvars, children, frames, hn, Expr.vars_token]
      rfl
    · rename_i l args s hn
      have hargs := (isFirstOrder_app hn).mp h
      rw [hvars, children, frames, hn, Expr.vars_app, List.flatMap_map]
      simp only [Node.children, Node.frames, List.append_nil]
      refine List.flatMap_congr fun a ha => ih a ?_ (hargs a ha)
      rwa [children, hn]
    · rename_i hvar htoken happ
      rw [isFirstOrder_eq] at h
      split at h
      · simp_all
      · simp_all
      · simp_all
      · rw [Bool.and_eq_true] at h
        rw [Expr.vars_data, (isGround_iff_vars t).mp h.1]

/-- A first-order term that is neither a variable nor an application has no variables. -/
theorem cases_node (t : Term) : (∃ v, t.node = .var v) ∨
    (∃ l args s, t.node = .app (.const l) args s) ∨ t.expr.vars = [] := by
  rw [expr_eq]
  cases t.node with
  | var v => exact .inl ⟨v, rfl⟩
  | app l args s =>
    cases l with
    | const l => exact .inr (.inl ⟨l, args, s, rfl⟩)
    | freezer f => simp
  | _ => simp

theorem isGround_iff_expr (h : t.isFirstOrder D) : t.isGround ↔ t.expr.vars = [] := by
  rw [vars_expr h, isGround_iff_vars]

end FirstOrder

end Term

end RuleCompiler
