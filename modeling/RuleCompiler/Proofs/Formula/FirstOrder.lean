import Mathlib.Algebra.GroupWithZero.Nat
import Mathlib.Algebra.Order.BigOperators.Group.List
import Mathlib.Algebra.Order.Group.Nat
import RuleCompiler.Formula.Solve
import RuleCompiler.Proofs.Formula.Decompose
import RuleCompiler.Proofs.Term.Instance

/-! # Decomposing first-order equations

Between terms of variables, tokens and applications every equation is decided at once: it holds, it comes
to the equations between the arguments, it binds a variable, or it has no solution. -/

namespace RuleCompiler

open Build (Makes)

namespace Lookup

/-- Whether applications of the label to so many arguments are lookups or choices. -/
def isCallOf (label : String) (arity : Nat) : Bool :=
  arity == 2 && (label == "Map:lookup" || label == "Set:in" || label == "List:get") ||
    arity == 1 && (label == mapChoiceLabel || label == setChoiceLabel)

end Lookup

namespace Expr
variable {sorts : String → SortName} {t u : Expr} {θ : Var → Expr} {v : Var}

/-- The number of variables, tokens and applications. -/
def size : Expr → Nat
  | app _ as _ => (as.map size).sum + 1
  | _ => 1

@[simp] theorem size_var (v : Var) : (var v).size = 1 := by rw [size]; simp

@[simp] theorem size_token (s : SortName) (x : String) : (token s x).size = 1 := by rw [size]; simp

@[simp] theorem size_app (l : String) (as : List Expr) (s : SortName) :
    (app l as s).size = (as.map size).sum + 1 := by rw [size]

theorem size_pos (t : Expr) : 0 < t.size := by
  cases t <;> simp [size]

theorem size_arg_lt {l : String} {as : List Expr} {s : SortName} {a : Expr} (ha : a ∈ as) :
    a.size < (app l as s).size := by
  rw [size_app]
  exact Nat.lt_succ_of_le (List.single_le_sum (fun _ _ => Nat.zero_le _) _ (List.mem_map_of_mem ha))

theorem size_le_of_mem_vars (hv : v ∈ t.vars) : (θ v).size ≤ (t.subst θ).size := by
  induction t using induction with
  | var w =>
    rw [vars_var, List.mem_singleton] at hv
    exact Nat.le_of_eq (by rw [subst_var, hv])
  | token s x => simp at hv
  | data c s => simp at hv
  | app l as s ih =>
    rw [vars_app] at hv
    obtain ⟨a, ha, hv⟩ := List.mem_flatMap.mp hv
    rw [subst_app]
    exact Nat.le_trans (ih a ha hv) (Nat.le_of_lt (size_arg_lt (List.mem_map_of_mem ha)))

/-- A variable never has the value of a larger term that it occurs in. -/
theorem eq_var_of_occurs (hv : v ∈ t.vars) (h : θ v = t.subst θ) : t = var v := by
  cases t with
  | var w =>
    rw [vars_var, List.mem_singleton] at hv
    rw [hv]
  | token s x => simp at hv
  | data c s => simp at hv
  | app l as s =>
    rw [vars_app] at hv
    obtain ⟨a, ha, hv⟩ := List.mem_flatMap.mp hv
    have hle := size_le_of_mem_vars (θ := θ) hv
    rw [h, subst_app] at hle
    exact absurd hle (Nat.not_le_of_lt (size_arg_lt (List.mem_map_of_mem ha)))

/-- The values of the variables are of their sorts. -/
def IsSorted (θ : Var → Expr) : Prop := ∀ v, (θ v).sort.subsortOf v.sort

theorem IsSorted.subst (hθ : IsSorted θ) (t : Expr) : (t.subst θ).sort.subsortOf t.sort := by
  cases t with
  | var v => simpa [sort] using hθ v
  | _ => simp [sort]

theorem sort_subst (h : ∀ v, t ≠ var v) : (t.subst θ).sort = t.sort := by
  cases t with
  | var v => exact absurd rfl (h v)
  | _ => simp [sort]

/-- No variable is a don't-care variable and no application is a lookup, and every label has its sort. -/
structure IsPlain (sorts : String → SortName) (t : Expr) : Prop where
  named : ∀ v ∈ t.vars, v.isDontCare = false
  apps : t.All fun l as s => s = sorts l ∧ Lookup.isCallOf l as.length = false

namespace IsPlain

theorem arg {l : String} {as : List Expr} {s : SortName} (h : (app l as s).IsPlain sorts) :
    ∀ a ∈ as, a.IsPlain sorts := fun a ha =>
  ⟨fun v hv => h.named v (by rw [vars_app]; exact List.mem_flatMap.mpr ⟨a, ha, hv⟩), h.apps.arg a ha⟩

theorem subst (h : t.IsPlain sorts) (hθ : ∀ v ∈ t.vars, (θ v).IsPlain sorts) :
    (t.subst θ).IsPlain sorts := by
  refine ⟨fun v hv => ?_, ?_⟩
  · obtain ⟨w, hw, hv⟩ := mem_vars_subst.mp hv
    exact (hθ w hw).named v hv
  · have happs := h.apps
    induction t using induction with
    | var v => simpa using (hθ v (by simp)).apps
    | token s x => simpa using happs
    | data c s => simpa using happs
    | app l as s ih =>
      rw [subst_app]
      refine .app (by simpa using happs.top) fun a ha => ?_
      obtain ⟨b, hb, rfl⟩ := List.mem_map.mp ha
      refine ih b hb (h.arg b hb) (fun v hv => hθ v ?_) (happs.arg b hb)
      rw [vars_app]
      exact List.mem_flatMap.mpr ⟨b, hb, hv⟩

end IsPlain

end Expr

namespace Term
variable {sorts : String → SortName} {w : World} {t u : Term}

/-- A variable that is no don't-care variable, a token, or an application of a label of its sort that is no
lookup. -/
def isPlainNode (sorts : String → SortName) (t : Term) : Bool :=
  match t.node with
  | .var v => !v.isDontCare
  | .token .. => true
  | .app (.const l) _ s => s == sorts l && !t.isLookup
  | _ => false

/-- Terms made of variables, tokens and applications only. -/
def IsPlain (sorts : String → SortName) (t : Term) : Prop := t.everyNode (isPlainNode sorts)

instance (sorts : String → SortName) (t : Term) : Decidable (t.IsPlain sorts) :=
  inferInstanceAs (Decidable (_ = true))

theorem isLookup_app {l : String} {args : List Term} {s : SortName} (hn : t.node = .app (.const l) args s) :
    t.isLookup = Lookup.isCallOf l args.length := by
  unfold isLookup Lookup.ofCall?
  rw [hn]
  rcases args with _ | ⟨_, _ | ⟨_, _ | _⟩⟩
  · rfl
  · dsimp only
    split_ifs <;> simp_all [Lookup.isCallOf]
  · dsimp only
    split_ifs <;> simp_all [Lookup.isCallOf]
  · rfl

/-- A plain term that is one of the world. -/
structure Plain (sorts : String → SortName) (w : World) (t : Term) : Prop where
  knows : w.Knows (fun _ => false) t
  isPlain : t.expr.IsPlain sorts

namespace Plain

theorem of_isPlain (hw : w.Has t) (h : t.IsPlain sorts) : t.Plain sorts w := by
  have hall : t.isFirstOrder (fun _ => false) ∧ t.expr.IsPlain sorts := by
    clear hw
    induction t using Term.induction with
    | h t ih =>
      obtain ⟨hnode, hchildren, -⟩ := everyNode_iff.mp h
      rw [isPlainNode] at hnode
      split at hnode
      · rename_i v hn
        rw [isFirstOrder_eq, expr_of_var hn, hn]
        exact ⟨rfl, by simpa using hnode, .var v⟩
      · rename_i s x hn
        rw [isFirstOrder_eq, expr_of_token hn, hn]
        exact ⟨rfl, by simp, .token s x⟩
      · rename_i l args s hn
        rw [children, hn] at ih hchildren
        rw [isFirstOrder_app hn, expr_of_app hn]
        rw [isLookup_app hn] at hnode
        refine ⟨fun a ha => (ih a ha (hchildren a ha)).1, fun v hv => ?_, .app ?_ fun e he => ?_⟩
        · rw [Expr.vars_app, List.flatMap_map] at hv
          obtain ⟨a, ha, hv⟩ := List.mem_flatMap.mp hv
          exact (ih a ha (hchildren a ha)).2.named v hv
        · simpa using hnode
        · obtain ⟨a, ha, rfl⟩ := List.mem_map.mp he
          exact (ih a ha (hchildren a ha)).2.apps
      · cases hnode
  exact ⟨⟨hw, hall.1⟩, hall.2⟩

theorem mono {w' : World} (hw : w ≤ w') (h : t.Plain sorts w) : t.Plain sorts w' :=
  ⟨h.knows.mono hw, h.isPlain⟩

/-- A plain term is a variable, a token or an application. -/
theorem cases (h : t.Plain sorts w) : (∃ v, t.node = .var v) ∨ (∃ s x, t.node = .token s x) ∨
    ∃ l args, t.node = .app (.const l) args (sorts l) ∧ Lookup.isCallOf l args.length = false := by
  have hfo := h.knows.isFirstOrder
  rw [isFirstOrder_eq] at hfo
  split at hfo
  · rename_i v hn
    exact .inl ⟨v, hn⟩
  · rename_i s x hn
    exact .inr (.inl ⟨s, x, hn⟩)
  · rename_i l args s hn
    have hplain := h.isPlain
    rw [expr_of_app hn] at hplain
    obtain ⟨rfl, hlookup⟩ := hplain.apps.top
    rw [List.length_map] at hlookup
    exact .inr (.inr ⟨l, args, hn, hlookup⟩)
  · rw [Bool.and_false] at hfo
    cases hfo

theorem arg (h : t.Plain sorts w) {l : String} {args : List Term} {s : SortName}
    (hn : t.node = .app (.const l) args s) {a : Term} (ha : a ∈ args) : a.Plain sorts w := by
  have hplain := h.isPlain
  rw [expr_of_app hn] at hplain
  exact ⟨h.knows.arg hn ha, hplain.arg _ (List.mem_map_of_mem ha)⟩

theorem weight_eq (h : t.Plain sorts w) : t.weight = t.expr.size := by
  induction t using Term.induction with
  | h t ih =>
    rw [weight, fold_eq, ← weight]
    rcases h.cases with ⟨v, hn⟩ | ⟨s, x, hn⟩ | ⟨l, args, hn, -⟩
    · rw [children, frames, hn, expr_of_var hn, Expr.size_var]
      rfl
    · rw [children, frames, hn, expr_of_token hn, Expr.size_token]
      rfl
    · have hweights : args.map weight = args.map fun a => a.expr.size :=
        List.map_congr_left fun a ha => ih a (by rwa [children, hn]) (h.arg hn ha)
      rw [children, frames, hn, expr_of_app hn, Expr.size_app, List.map_map]
      simp only [Node.children, Node.frames, hweights, List.length_nil, Nat.add_zero]
      rfl

theorem ofCall?_eq_none (h : t.Plain sorts w) (u : Term) : Lookup.ofCall? t u = none := by
  rcases h.cases with ⟨v, hn⟩ | ⟨s, x, hn⟩ | ⟨l, args, hn, hlookup⟩
  · rw [Lookup.ofCall?, hn]
  · rw [Lookup.ofCall?, hn]
  · rw [← isLookup_app hn, ← isSome_ofCall? t u] at hlookup
    simpa using hlookup

theorem isSequence_eq_false (h : t.Plain sorts w) : Decomposition.isSequence t = false := by
  unfold Decomposition.isSequence
  rcases h.cases with ⟨v, hn⟩ | ⟨s, x, hn⟩ | ⟨l, args, hn, -⟩ <;> rw [hn]

end Plain

end Term

namespace Decomposition
variable {sorts : String → SortName} {w : World} {t u : Term} {v : Var} {isCall : Term → Bool}

/-- Where a solution shows that the sorts are right, a variable is bound to the other side, unless there is no
solution, or the other side is a call of another sort. -/
theorem bindTo_plain {node value : Term} (hnode : node.Plain sorts w)
    (hvalue : value.Plain sorts w) (hn : node.node = .var v) (hne : ¬node == value)
    (hsort : ∀ θ, Expr.IsSorted θ → θ v = value.expr.subst θ → value.sort.subsortOf v.sort)
    {d : Decomposition}
    (hd : d = if !value.sort.subsortOf v.sort then
        if isCall value then undecided node value else fails
      else if v.isDontCare then holds else if occurs v value then fails else binding v value) :
    (d = fails ∧ ∀ θ, Expr.IsSorted θ → θ v ≠ value.expr.subst θ) ∨
      (d = undecided node value ∧ isCall value ∧ value.sort.subsortOf v.sort = false) ∨
      d = binding v value ∧ value.sort.subsortOf v.sort ∧ v ∉ value.expr.vars := by
  have hexpr := Term.expr_of_var hn
  have hv : v.isDontCare = false := hnode.isPlain.named v (by simp [hexpr])
  rw [hv] at hd
  rw [Term.vars_expr hvalue.knows.isFirstOrder]
  split at hd
  · rename_i huntyped
    split at hd
    · rename_i hcall
      exact .inr (.inl ⟨hd, hcall, by simpa using huntyped⟩)
    · exact .inl ⟨hd, fun θ hθ h => by simp [hsort θ hθ h] at huntyped⟩
  rename_i htyped
  rw [if_neg Bool.false_ne_true] at hd
  split at hd
  · rename_i hoccurs
    refine .inl ⟨hd, fun θ hθ h => hne (Term.beq_iff_expr.mpr ?_)⟩
    rw [hexpr, Expr.eq_var_of_occurs (Term.vars_expr hvalue.knows.isFirstOrder ▸ by simpa [occurs] using hoccurs) h]
  · rename_i hoccurs
    exact .inr (.inr ⟨hd, by simpa using htyped, by simpa [occurs] using hoccurs⟩)

/-- A variable is bound to the other side, or the other side to it, unless the equation has no solution or the
other side is a call of another sort. -/
theorem ofVar_plain (ht : t.Plain sorts w) (hu : u.Plain sorts w) (hn : t.node = .var v) (hne : ¬t == u) :
    (ofVar isCall v t u = fails ∧ ∀ θ, Expr.IsSorted θ → θ v ≠ u.expr.subst θ) ∨
      (ofVar isCall v t u = undecided t u ∧ isCall u ∧ u.sort.subsortOf v.sort = false) ∨
      ∃ x a, ofVar isCall v t u = binding x a ∧ a.sort.subsortOf x.sort ∧ x ∉ a.expr.vars ∧
        (x = v ∧ a = u ∨ u.node = .var x ∧ a = t) := by
  have hexpr := Term.expr_of_var hn
  generalize hd : ofVar isCall v t u = d
  have hbound (h : d = binding v u ∧ u.sort.subsortOf v.sort ∧ v ∉ u.expr.vars) :
      ∃ x a, d = binding x a ∧ a.sort.subsortOf x.sort ∧ x ∉ a.expr.vars ∧
        (x = v ∧ a = u ∨ u.node = .var x ∧ a = t) := ⟨v, u, h.1, h.2.1, h.2.2, .inl ⟨rfl, rfl⟩⟩
  unfold ofVar at hd
  dsimp only at hd
  split at hd
  · rename_i x hx
    have hx := Term.node_of_asVar? hx
    have hexpr' := Term.expr_of_var hx
    have htsort : t.sort = v.sort := by rw [← Term.sort_expr, hexpr]; rfl
    have husort : u.sort = x.sort := by rw [← Term.sort_expr, hexpr']; rfl
    split at hd
    · -- The other variable has the more general sort, and is bound to this one.
      rename_i hgeneral
      rw [Bool.and_eq_true] at hgeneral
      rcases bindTo_plain hu ht hx (fun h => hne (BEq.symm h)) (fun _ _ _ => htsort ▸ hgeneral.2) hd.symm
        with ⟨h, hnone⟩ | ⟨-, -, huntyped⟩ | ⟨h, hsort, habsent⟩
      · refine .inl ⟨h, fun θ hθ heq => hnone θ hθ ?_⟩
        rw [hexpr', Expr.subst_var] at heq
        rw [hexpr, Expr.subst_var, heq]
      · rw [htsort, hgeneral.2] at huntyped
        cases huntyped
      · exact .inr (.inr ⟨x, t, h, hsort, habsent, .inr ⟨hx, rfl⟩⟩)
    · rename_i hgeneral
      have hsort : ∀ θ, Expr.IsSorted θ → θ v = u.expr.subst θ → u.sort.subsortOf v.sort := by
        intro θ hθ heq
        rw [hexpr', Expr.subst_var] at heq
        rw [husort]
        rcases SortName.comparable_of_subsort (hθ x) (heq ▸ hθ v) with h | h
        · exact h
        · simpa [h] using hgeneral
      exact (bindTo_plain ht hu hn hne hsort hd.symm).imp_right (Or.imp_right hbound)
  · rename_i hvar
    have hsort : ∀ θ, Expr.IsSorted θ → θ v = u.expr.subst θ → u.sort.subsortOf v.sort := by
      intro θ hθ heq
      rw [← Term.sort_expr, ← Expr.sort_subst fun x hx => ?_, ← heq]
      · exact hθ v
      · rw [Term.asVar?_of_var (Term.node_of_expr_var hx)] at hvar
        cases hvar
    exact (bindTo_plain ht hu hn hne hsort hd.symm).imp_right (Or.imp_right hbound)

end Decomposition

namespace Formula
variable {sorts : String → SortName} {w : World} {f : Formula} {a b : Term}

/-- The equations say no more and no less than `a = b`, with the terms of `a` and `b` only, and they are
lighter. -/
structure Splits (sorts : String → SortName) (w : World) (a b : Term) (es : List Equation) : Prop where
  plain : ∀ e ∈ es, e.1.Plain sorts w ∧ e.2.Plain sorts w
  vars : ∀ e ∈ es, ∀ x, x ∈ e.1.expr.vars ∨ x ∈ e.2.expr.vars → x ∈ a.expr.vars ∨ x ∈ b.expr.vars
  size : (es.map fun e => e.1.expr.size + e.2.expr.size).sum < a.expr.size + b.expr.size
  solves : ∀ θ, (∀ e ∈ es, e.1.expr.subst θ = e.2.expr.subst θ) → a.expr.subst θ = b.expr.subst θ
  solved : ∀ θ, a.expr.subst θ = b.expr.subst θ → ∀ e ∈ es, e.1.expr.subst θ = e.2.expr.subst θ

/-- Why an equation is kept for later. -/
inductive IsStuck (isCall : Term → Bool) (a b : Term) : Prop where
  /-- A call may come to something of the variable's sort, though it is of another. -/
  | untyped {v : Var} (ha : a.node = .var v) (hcall : isCall b) (hsort : b.sort.subsortOf v.sort = false)
  /-- A call may come to anything of its sort. -/
  | call (ha : a.isVar = false) (hb : b.isVar = false) (hne : ¬a == b) (hcall : isCall a ∨ isCall b)

/-- What the move for the equation of two plain terms may be. -/
inductive MovesTo (sorts : String → SortName) (w : World) (f : Formula) (a b : Term) : Move → Prop where
  | advance {es : List Equation} (h : Splits sorts w a b es) : MovesTo sorts w f a b (.advance f es)
  | keep {c d : Term} (hside : c = a ∧ d = b ∨ c = b ∧ d = a) (h : IsStuck f.isCall c d) :
      MovesTo sorts w f a b (.advance (f.keepEquation c d) [])
  | bind {v : Var} {u : Term} (h : a.node = .var v ∧ u = b ∨ b.node = .var v ∧ u = a)
      (hsort : u.sort.subsortOf v.sort) (habsent : v ∉ u.expr.vars) : MovesTo sorts w f a b (.bind v u)
  | stop (h : ∀ θ, Expr.IsSorted θ → a.expr.subst θ ≠ b.expr.subst θ) : MovesTo sorts w f a b (.stop f.falsify)

theorem sum_zip_le {α β : Type} (g : α → Nat) (h : β → Nat) : ∀ (as : List α) (bs : List β),
    ((as.zip bs).map fun e => g e.1 + h e.2).sum ≤ (as.map g).sum + (bs.map h).sum
  | a :: as, b :: bs => by
    have ih := sum_zip_le g h as bs
    simp only [List.zip_cons_cons, List.map_cons, List.sum_cons]
    omega
  | [], _ => by simp
  | _ :: _, [] => by simp

theorem splits_args {l : String} {as bs : List Term} {s : SortName} (ha : a.Plain sorts w)
    (hb : b.Plain sorts w) (hna : a.node = .app (.const l) as s) (hnb : b.node = .app (.const l) bs s)
    (hlen : as.length = bs.length) : Splits sorts w a b (as.zip bs).reverse where
  plain e he := by
    have hmem := List.of_mem_zip (List.mem_reverse.mp he)
    exact ⟨ha.arg hna hmem.1, hb.arg hnb hmem.2⟩
  vars e he x hx := by
    have hmem := List.of_mem_zip (List.mem_reverse.mp he)
    rw [Term.expr_of_app hna, Term.expr_of_app hnb, Expr.vars_app, Expr.vars_app, List.flatMap_map,
      List.flatMap_map]
    exact hx.imp (fun hx => List.mem_flatMap.mpr ⟨_, hmem.1, hx⟩)
      fun hx => List.mem_flatMap.mpr ⟨_, hmem.2, hx⟩
  size := by
    have hle := sum_zip_le (fun t : Term => t.expr.size) (fun t : Term => t.expr.size) as bs
    rw [Term.expr_of_app hna, Term.expr_of_app hnb, Expr.size_app, Expr.size_app, List.map_map,
      List.map_map, List.map_reverse, List.sum_reverse]
    exact Nat.lt_of_le_of_lt hle (by simp only [Function.comp_def]; omega)
  solves θ h := by
    have hargs : List.Forall₂ (fun a b : Term => a.expr.subst θ = b.expr.subst θ) as bs :=
      PairedLists.of_zip hlen fun e he => h e (List.mem_reverse.mpr he)
    rw [Term.expr_of_app hna, Term.expr_of_app hnb, Expr.subst_app, Expr.subst_app, List.map_map,
      List.map_map]
    exact congrArg (Expr.app l · s) (PairedLists.map_eq hargs)
  solved θ h := by
    rw [Term.expr_of_app hna, Term.expr_of_app hnb, Expr.subst_app, Expr.subst_app, List.map_map,
      List.map_map] at h
    have hargs : List.Forall₂ (fun a b : Term => a.expr.subst θ = b.expr.subst θ) as bs :=
      PairedLists.of_map_eq (fun _ _ h => h) (Expr.app.inj h).2.1
    exact fun e he => (List.forall₂_iff_zip.mp hargs).2 (List.mem_reverse.mp he)

/-- The equation of two different terms that are no variables. -/
theorem ofNodes_plain (ha : a.Plain sorts w) (hb : b.Plain sorts w) (hva : a.isVar = false)
    (hvb : b.isVar = false) :
    (Decomposition.ofNodes a b = pure .fails ∧ (¬a == b → ∀ θ, a.expr.subst θ ≠ b.expr.subst θ)) ∨
      ∃ es, Decomposition.ofNodes a b = pure (.parts es) ∧ Splits sorts w a b es.reverse := by
  rcases ha.cases with ⟨v, hna⟩ | ⟨s, x, hna⟩ | ⟨l, as, hna, -⟩
  · rw [Term.isVar, hna] at hva
    cases hva
  · refine .inl ?_
    rcases hb.cases with ⟨v, hnb⟩ | ⟨s', x', hnb⟩ | ⟨l', bs, hnb, -⟩
    · rw [Term.isVar, hnb] at hvb
      cases hvb
    · refine ⟨by rw [Decomposition.ofNodes, hna, hnb], fun hne θ h => hne ?_⟩
      rw [Term.expr_of_token hna, Term.expr_of_token hnb, Expr.subst_token, Expr.subst_token] at h
      rw [Term.beq_iff_expr, Term.expr_of_token hna, Term.expr_of_token hnb, h]
    · refine ⟨by rw [Decomposition.ofNodes, hna, hnb], fun _ θ h => ?_⟩
      rw [Term.expr_of_token hna, Term.expr_of_app hnb, Expr.subst_token, Expr.subst_app] at h
      cases h
  · rcases hb.cases with ⟨v, hnb⟩ | ⟨s', x', hnb⟩ | ⟨l', bs, hnb, -⟩
    · rw [Term.isVar, hnb] at hvb
      cases hvb
    · refine .inl ⟨by rw [Decomposition.ofNodes, hna, hnb], fun _ θ h => ?_⟩
      rw [Term.expr_of_app hna, Term.expr_of_token hnb, Expr.subst_token, Expr.subst_app] at h
      cases h
    · by_cases h : as.length = bs.length ∧ l = l'
      · obtain ⟨hlen, rfl⟩ := h
        refine .inr ⟨as.zip bs, ?_, splits_args ha hb hna hnb hlen⟩
        rw [Decomposition.ofNodes, hna, hnb]
        dsimp only
        rw [if_pos (by simp [hlen])]
      · refine .inl ⟨?_, fun _ θ heq => h ?_⟩
        · rw [Decomposition.ofNodes, hna, hnb]
          dsimp only
          rw [if_neg (by simpa using h)]
        · rw [Term.expr_of_app hna, Term.expr_of_app hnb, Expr.subst_app, Expr.subst_app] at heq
          obtain ⟨hl, hargs, -⟩ := Expr.app.inj heq
          exact ⟨by simpa using congrArg List.length hargs, hl⟩

theorem isVar_of_isCall (h : f.isCall b) : b.isVar = false := by
  unfold isCall Term.constLabel? Node.constLabel? at h
  unfold Term.isVar
  split at h <;> simp_all [Node.isVar]

/-- What is done about an equation that comes to `d`. -/
def Move.of (f : Formula) : Decomposition → Move
  | .holds => .advance f []
  | .parts es => .advance f es.reverse
  | .binding v value => .bind v value
  | .undecided l r => .advance (f.keepEquation l r) []
  | .fails => .stop f.falsify

theorem move_eq {d : Decomposition} (ha : a.Plain sorts w) (hb : b.Plain sorts w) (hne : ¬a == b)
    (h : Decomposition.of f.isCall a b = pure d) : f.move a b = pure (Move.of f d) := by
  have hlookup : Lookup.ofEquation? a b = none := by
    rw [Lookup.ofEquation?, ha.ofCall?_eq_none, hb.ofCall?_eq_none]
    rfl
  rw [move, if_neg hne, hlookup]
  dsimp only
  rw [h, pure_bind]
  cases d <;> rfl

/-- The side that is a variable is bound, unless neither is one. -/
theorem of_plain (isCall : Term → Bool) (ha : a.Plain sorts w) (hb : b.Plain sorts w) :
    Decomposition.of isCall a b = match a.asVar?, b.asVar? with
      | some v, _ => pure (Decomposition.ofVar isCall v a b)
      | none, some v => pure (Decomposition.ofVar isCall v b a)
      | none, none =>
        if isCall a || isCall b then pure (.undecided a b) else Decomposition.ofNodes a b := by
  have hrewrite {t : Term} (ht : t.Plain sorts w) {l r : Term} (hn : t.node = .rewrite l r) : False := by
    rcases ht.cases with ⟨v, hn'⟩ | ⟨s, x, hn'⟩ | ⟨l, args, hn', -⟩ <;> rw [hn'] at hn <;> cases hn
  have hfilter (o : Option Var) : o.filter (fun _ => true) = o := by cases o <;> rfl
  unfold Decomposition.of
  split
  · exact (hrewrite ha ‹_›).elim
  · exact (hrewrite hb ‹_›).elim
  · dsimp only
    rw [ha.isSequence_eq_false, hb.isSequence_eq_false]
    simp only [Bool.not_false, Bool.or_true, hfilter]
    cases a.asVar? with
    | some v => rfl
    | none => cases b.asVar? <;> simp

/-- A term is the same as itself already. -/
theorem splits_of_beq (hab : a == b) : Splits sorts w a b [] where
  plain := List.forall_mem_nil _
  vars := List.forall_mem_nil _
  size := by
    have := a.expr.size_pos
    simp only [List.map_nil, List.sum_nil]
    omega
  solves θ _ := by rw [Term.beq_iff_expr.mp hab]
  solved _ _ := List.forall_mem_nil _

/-- The equation of a variable and another term. -/
theorem movesTo_ofVar {v : Var} (ha : a.Plain sorts w) (hb : b.Plain sorts w) (hn : a.node = .var v)
    (hab : ¬a == b) : MovesTo sorts w f a b (Move.of f (Decomposition.ofVar f.isCall v a b)) := by
  rcases @Decomposition.ofVar_plain sorts w a b v f.isCall ha hb hn hab
    with ⟨h, hnone⟩ | ⟨h, hcall, hsort⟩ | ⟨x, u, h, hsort, habsent, hx⟩ <;> rw [h]
  · exact .stop fun θ hθ => by simpa [Term.expr_of_var hn] using hnone θ hθ
  · exact .keep (.inl ⟨rfl, rfl⟩) (.untyped hn hcall hsort)
  · refine .bind ?_ hsort habsent
    rcases hx with ⟨rfl, rfl⟩ | hx
    · exact .inl ⟨hn, rfl⟩
    · exact .inr hx

/-- It does not matter which side is which. -/
theorem MovesTo.symm {m : Move} (h : MovesTo sorts w f a b m) : MovesTo sorts w f b a m := by
  cases h with
  | advance h =>
    refine .advance ⟨h.plain, fun e he x hx => (h.vars e he x hx).symm, ?_, fun θ hes => (h.solves θ hes).symm,
      fun θ heq => h.solved θ heq.symm⟩
    rw [Nat.add_comm]
    exact h.size
  | keep hside h => exact .keep hside.symm h
  | bind h hsort habsent => exact .bind h.symm hsort habsent
  | stop h => exact .stop fun θ hθ heq => h θ hθ heq.symm

theorem move_plain (f : Formula) (ha : a.Plain sorts w) (hb : b.Plain sorts w) :
    ∃ m, f.move a b = pure m ∧ MovesTo sorts w f a b m := by
  by_cases hab : a == b
  · exact ⟨.advance f [], by rw [move, if_pos hab], .advance (splits_of_beq hab)⟩
  have hof := of_plain f.isCall ha hb
  split at hof
  · exact ⟨_, move_eq ha hb hab hof, movesTo_ofVar ha hb (Term.node_of_asVar? ‹_›) hab⟩
  · exact ⟨_, move_eq ha hb hab hof,
      (movesTo_ofVar hb ha (Term.node_of_asVar? ‹_›) fun h => hab (BEq.symm h)).symm⟩
  · rename_i hva hvb
    have hva := Term.isVar_of_asVar? hva
    have hvb := Term.isVar_of_asVar? hvb
    split at hof
    · rename_i hcall
      exact ⟨_, move_eq ha hb hab hof, .keep (.inl ⟨rfl, rfl⟩) (.call hva hvb hab (by simpa using hcall))⟩
    · rcases ofNodes_plain ha hb hva hvb with ⟨h, hnone⟩ | ⟨es, h, hsplits⟩
      · exact ⟨_, move_eq ha hb hab (hof.trans h), .stop fun θ _ => hnone hab θ⟩
      · exact ⟨_, move_eq ha hb hab (hof.trans h), .advance hsplits⟩

/-- An equation that had to be kept once has to be kept again. -/
theorem move_stuck (ha : a.Plain sorts w) (hb : b.Plain sorts w) (h : IsStuck f.isCall a b) :
    f.move a b = pure (.advance (f.keepEquation a b) []) := by
  have hof := of_plain f.isCall ha hb
  cases h with
  | @untyped v hn hcall hsort =>
    have hvb := isVar_of_isCall hcall
    have hva : a.isVar := by rw [Term.isVar, hn, Node.isVar]
    have hne : ¬a == b := fun h => by
      rw [← Term.isVar_congr h, hva] at hvb
      cases hvb
    rw [Term.asVar?_of_var hn] at hof
    dsimp only at hof
    rw [Decomposition.ofVar, Term.asVar?_eq_none hvb] at hof
    dsimp only at hof
    rw [hsort, hcall] at hof
    exact move_eq ha hb hne hof
  | call hva hvb hne hcall =>
    rw [Term.asVar?_eq_none hva, Term.asVar?_eq_none hvb] at hof
    dsimp only at hof
    rw [if_pos (by simpa using hcall)] at hof
    exact move_eq ha hb hne hof

end Formula

end RuleCompiler
