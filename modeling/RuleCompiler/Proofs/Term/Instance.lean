import RuleCompiler.Proofs.Term.Walk
import RuleCompiler.Proofs.World
import RuleCompiler.Substitution

/-! # Instances of first-order terms

Walks over the first-order terms of a world give first-order terms of a later one, and what these
say is what the walk means: an instance says what its term says under the substitution. -/

namespace RuleCompiler

open Making (Makes)

namespace Making
variable {m : Type → Type} [Monad m] [LawfulMonad m] [MonadLiftT Build m] [Making m]
variable {α β : Type}

/-- Every value of a loop over a list belongs to its element. -/
theorem mapM {R : World → α → β → Prop}
    (hR : ∀ w w' a b, w ≤ w' → R w a b → R w' a b) {f : α → m β} :
    ∀ {l : List α} {w : World}, (∀ a ∈ l, ∀ w', w ≤ w' → Makes w' (f a) fun w'' b => R w'' a b) →
      Makes w (l.mapM f) fun w' bs => List.Forall₂ (R w') l bs
  | [], w, _ => by
    rw [List.mapM_nil]
    exact Making.pure .nil
  | a :: l, w, h => by
    rw [List.mapM_cons]
    refine Making.bind (h a List.mem_cons_self w w.le_refl) fun w' b hw hb => ?_
    refine Making.bind (mapM hR fun c hc w'' hw' => ?_) fun w'' bs hw' hbs => ?_
    · exact h c (List.mem_cons_of_mem a hc) w'' (World.le_trans hw hw')
    · exact Making.pure (.cons (hR _ _ _ _ hw' hb) hbs)

end Making

namespace Term
variable {D : Term → Bool} {w : World} {t : Term}

/-! ### New nodes -/

theorem makes_new {n : Node Term} (h : ∀ c ∈ n.children, w.Has c) :
    Makes w (new n) fun w' t => w'.Has t ∧ t.node = n := by
  unfold new
  split
  · rename_i hn
    refine Making.pure ⟨.intro _ (fun hc => ?_) h, rfl⟩
    rw [isCanonical, hn] at hc
    cases hc
  · let t : Term := ⟨{ id := w.next }, n⟩
    let w' : World := ⟨w.next + 1, Function.update w.meaning w.next t.expr, w.isClean⟩
    have hw : w ≤ w' := by
      refine ⟨Nat.le_succ _, fun i hi => ?_, id⟩
      exact Function.update_of_ne (Nat.ne_of_lt hi) _ _
    refine ⟨t, w', rfl, hw, rfl, .intro t (fun _ => ?_) fun c hc => (h c hc).mono hw, rfl⟩
    exact ⟨Nat.lt_succ_self _, Function.update_self ..⟩

theorem makes_var (w : World) (v : Var) :
    Makes w (var v) fun w' t => w'.Knows D t ∧ t.expr = .var v := by
  refine Making.mono (makes_new (n := .var v) (List.forall_mem_nil _)) fun w' t _ ⟨ht, hn⟩ => ?_
  exact ⟨⟨ht, by rw [isFirstOrder_eq, hn]⟩, expr_of_var hn⟩

/-! ### Updates -/

section Update
variable {m : Type → Type} [Monad m] [LawfulMonad m] [MonadLiftT Build m] [Making m]

omit [LawfulMonad m] in
theorem makes_nextId (w : World) : Makes w (liftM Build.nextId : m Nat) fun _ _ => True :=
  Making.lift ⟨w.next, w, rfl, w.le_refl, rfl, trivial⟩

/-- A node without frames is kept or made anew over its new children. -/
theorem makes_update {f frame : Term → m Term} (hframes : t.frames = [])
    {R : World → Term → Term → Prop} (hR : ∀ w w' a b, w ≤ w' → R w a b → R w' a b)
    (hf : ∀ c ∈ t.children, ∀ w', w ≤ w' → Makes w' (f c) fun w'' c' => R w'' c c')
    {Q : World → Term → Prop}
    (hkept : ∀ w' cs, w ≤ w' → List.Forall₂ (R w') t.children cs → allSame t.children cs → Q w' t)
    (hmade : ∀ w' cs, w ≤ w' → List.Forall₂ (R w') t.children cs → ¬allSame t.children cs →
      Build.Makes w' (t.rebuild cs []) fun w'' u => ∀ e, Q w'' (u.withEditable e)) :
    Makes w (t.update (t.children.map f) frame) Q := by
  unfold update
  refine Making.bind (makes_nextId w) fun w₁ start hw₁ _ => ?_
  rw [List.mapM_map, hframes, List.mapM_nil]
  have hchildren : Makes w₁ (t.children.mapM (id ∘ f)) fun w' cs =>
      List.Forall₂ (R w') t.children cs :=
    Making.mapM hR fun c hc w' hw' => hf c hc w' (World.le_trans hw₁ hw')
  refine Making.bind hchildren fun w₂ cs hw₂ hcs => ?_
  have hw := World.le_trans hw₁ hw₂
  simp only [pure_bind, List.all_nil, Bool.and_true, List.map_nil]
  split
  · rename_i hsame
    exact Making.pure (hkept w₂ cs hw hcs hsame)
  · rename_i hsame
    refine Making.bind (Making.lift (hmade w₂ cs hw hcs hsame)) fun w₃ u _ hu => Making.pure ?_
    have hself : Q w₃ u := by
      obtain ⟨⟨id, e⟩, n⟩ := u
      exact hu e
    unfold makeEditable
    split
    · split
      · exact hu true
      · exact hself
    · exact hself

theorem forall₂_of_allSame {R : Term → Expr → Prop} :
    ∀ {as bs : List Term}, (∀ a ∈ as, w.Has a) →
      List.Forall₂ (fun a b => w.Has b ∧ R a b.expr) as bs → allSame as bs →
        List.Forall₂ R as (as.map expr)
  | [], [], _, _, _ => .nil
  | a :: as, b :: bs, has, .cons ⟨hb, hR⟩ h, hsame => by
    obtain ⟨ha, has⟩ := List.forall_mem_cons.mp has
    unfold allSame at hsame
    rw [List.zip_cons_cons, List.all_cons, Bool.and_eq_true] at hsame
    refine .cons ?_ (forall₂_of_allSame has h hsame.2)
    rwa [ha.expr_eq_of_same hb hsame.1]

/-- An application is kept or made anew over its new arguments. -/
theorem makes_update_app {l : String} {args : List Term} {s : SortName} (ht : w.Knows D t)
    (hn : t.node = .app (.const l) args s) {f frame : Term → m Term}
    {R : World → Term → Expr → Prop} (hR : ∀ w w' a e, w ≤ w' → R w a e → R w' a e)
    (hf : ∀ a ∈ args, ∀ w', w ≤ w' →
      Makes w' (f a) fun w'' b => w''.Knows D b ∧ R w'' a b.expr) :
    Makes w (t.update (t.children.map f) frame) fun w' u => w'.Knows D u ∧
      ∃ es, u.expr = .app l es s ∧ List.Forall₂ (R w') args es := by
  have hchildren : t.children = args := by rw [children, hn]; rfl
  have hframes : t.frames = [] := by rw [frames, hn]; rfl
  refine makes_update (R := fun w a b => w.Knows D b ∧ R w a b.expr) hframes
    (fun w w' a b hw h => ⟨h.1.mono hw, hR w w' a _ hw h.2⟩) (hchildren ▸ hf)
    (fun w' cs hw hcs hsame => ?_) fun w' cs hw hcs _ => ?_
  · rw [hchildren] at hcs hsame
    refine ⟨ht.mono hw, args.map expr, expr_of_app hn, ?_⟩
    refine forall₂_of_allSame (fun a ha => ((ht.mono hw).arg hn ha).has) ?_ hsame
    exact hcs.imp fun a b h => ⟨h.1.has, h.2⟩
  · rw [hchildren] at hcs
    have hcs' : ∀ c ∈ cs, w'.Knows D c := by
      intro c hc
      obtain ⟨a, -, ha⟩ := PairedLists.exists_mem hcs.flip hc
      exact ha.1
    rw [rebuild_app hn]
    refine Making.mono (makes_new (n := .app (.const l) cs s) fun c hc => (hcs' c hc).has)
      fun w'' u hw' hu e => ?_
    obtain ⟨hu, hnode⟩ := hu
    have hnode' : (u.withEditable e).node = .app (.const l) cs s := hnode
    have hsame : (u.withEditable e).expr = u.expr := expr_of_node rfl
    refine ⟨⟨.intro _ (fun hc => ?_) fun c hc => hu.child hc, ?_⟩, cs.map expr, expr_of_app hnode', ?_⟩
    · rw [hsame]
      exact hu.node hc
    · exact (isFirstOrder_app hnode').mpr fun c hc => (hcs' c hc).isFirstOrder
    · rw [List.forall₂_map_right_iff]
      exact hcs.imp fun a c h => hR w' w'' a _ hw' h.2

end Update

/-! ### Instances -/

section Replace
variable {visit : Term → Build (Option Term)} (hother : ∀ u, u.isVar = false → visit u = pure none)
include hother

/-- Variables replaced from the top down. -/
theorem makes_replaceDown {θ : Var → Expr} (ht : w.Knows D t)
    (hvar : ∀ v ∈ t.expr.vars, ∀ w', w ≤ w' → ∀ u, u.node = .var v →
      Makes w' (visit u) fun w'' o => match o with
        | some u' => w''.Knows D u' ∧ u'.expr = θ v
        | none => θ v = .var v) :
    Makes w (replaceDown visit t) fun w' u => w'.Knows D u ∧ u.expr = t.expr.subst θ := by
  induction t using Term.induction generalizing w with
  | h t ih =>
    rcases t.cases_node with ⟨v, hn⟩ | ⟨l, args, s, hn⟩ | hground
    · have hexpr := expr_of_var hn
      have hchildren : t.children = [] := by rw [children, hn]; rfl
      have hframes : t.frames = [] := by rw [frames, hn]; rfl
      rw [hexpr, Expr.subst_var, replaceDown, fold_eq, ← replaceDown]
      refine Making.bind (hvar v (by simp [hexpr]) w w.le_refl t hn) fun w' o hw ho => ?_
      cases o with
      | some u => exact Making.pure ho
      | none =>
        have hself : t.update (t.children.map (replaceDown visit))
            (fun v => return (← visit v).getD v) = pure t :=
          update_eq_self hframes (by simp [hchildren])
        dsimp only
        rw [hself]
        exact Making.pure ⟨ht.mono hw, hexpr.trans ho.symm⟩
    · have hexpr := expr_of_app hn
      have hchildren : t.children = args := by rw [children, hn]; rfl
      rw [replaceDown_eq hother (by rw [isVar, hn]; rfl), hexpr, Expr.subst_app, List.map_map]
      refine Making.mono (makes_update_app (R := fun _ a e => e = a.expr.subst θ) ht hn
        (fun _ _ _ _ _ h => h) fun a ha w' hw => ?_) fun w' u _ hu => ⟨hu.1, ?_⟩
      · refine ih a (hchildren ▸ ha) ((ht.arg hn ha).mono hw) fun v hv w'' hw' => ?_
        refine hvar v ?_ w'' (World.le_trans hw hw')
        rw [hexpr, Expr.vars_app, List.flatMap_map]
        exact List.mem_flatMap.mpr ⟨a, ha, hv⟩
      · obtain ⟨-, es, hu', hes⟩ := hu
        have hes : es = args.map fun a => a.expr.subst θ := by
          rw [← List.forall₂_eq_eq_eq, List.forall₂_map_right_iff]
          exact hes.flip
        rw [hu', hes]
        rfl
    · rw [replaceDown_of_isGround hother ((isGround_iff_expr ht.isFirstOrder).mpr hground)]
      exact Making.pure ⟨ht, (Expr.subst_of_ground hground θ).symm⟩

end Replace

end Term

/-- What a variable is replaced by. -/
def Expr.ofValues (value : Var → Option Term) (v : Var) : Expr :=
  ((value v).map Term.expr).getD (.var v)

namespace Term
variable {D : Term → Bool} {w : World} {t : Term}

theorem makes_substitute {value : Var → Option Term} (ht : w.Knows D t)
    (hvalue : ∀ v u, value v = some u → w.Knows D u) :
    Makes w (t.substitute value) fun w' u =>
      w'.Knows D u ∧ u.expr = t.expr.subst (Expr.ofValues value) := by
  refine makes_replaceDown (fun u hu => ?_) ht fun v _ w' hw u hu => Making.pure ?_
  · rw [asVar?_eq_none hu]
    rfl
  · rw [asVar?_of_var hu, Option.bind_some]
    unfold Expr.ofValues
    cases hv : value v with
    | some u => exact ⟨(hvalue v u hv).mono hw, rfl⟩
    | none => rfl

theorem makes_rename {name : Var → Option Var} (ht : w.Knows D t) :
    Makes w (t.rename name) fun w' u =>
      w'.Knows D u ∧ u.expr = t.expr.subst fun v => .var ((name v).getD v) := by
  refine makes_replaceDown (fun u hu => ?_) ht fun v _ w' hw u hu => ?_
  · rw [asVar?_eq_none hu]
    rfl
  · rw [asVar?_of_var hu, Option.bind_some]
    cases name v with
    | some v' =>
      refine Making.bind (makes_var (D := D) w' v') fun w'' u _ hu => Making.pure hu
    | none => exact Making.pure rfl

end Term

theorem Substitution.makes_apply {D : Term → Bool} {w : World} {t : Term} {σ : Substitution}
    (ht : w.Knows D t) (hσ : ∀ v u, σ.get? v = some u → w.Knows D u) :
    Makes w (σ.apply t) fun w' u =>
      w'.Knows D u ∧ u.expr = t.expr.subst (Expr.ofValues σ.get?) :=
  Term.makes_substitute ht hσ

end RuleCompiler
