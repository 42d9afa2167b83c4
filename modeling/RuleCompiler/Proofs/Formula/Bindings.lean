import Mathlib.Data.List.Nodup
import RuleCompiler.Proofs.Formula.FirstOrder
import RuleCompiler.Proofs.Substitution

/-! # Bindings of plain terms

Bindings are resolved as long as no bound term mentions a bound variable. A binding more is put into the
others, and then says of every valuation what it says itself, beside what the others said before. -/

namespace RuleCompiler

open Making (Makes)

namespace Expr
variable {sorts : String → SortName} {value : Var → Option Term} {θ : Var → Expr} {t : Expr} {v x : Var}

theorem mem_vars_ofValues (h : x ∈ (ofValues value v).vars) :
    value v = none ∧ x = v ∨ ∃ u, value v = some u ∧ x ∈ u.expr.vars := by
  unfold ofValues at h
  cases hv : value v with
  | none =>
    rw [hv] at h
    exact .inl ⟨rfl, by simpa using h⟩
  | some u =>
    rw [hv] at h
    exact .inr ⟨u, rfl, h⟩

theorem isPlain_ofValues (hv : v.isDontCare = false) (h : ∀ u, value v = some u → u.expr.IsPlain sorts) :
    (ofValues value v).IsPlain sorts := by
  unfold ofValues
  cases hu : value v with
  | none => exact ⟨by simpa using hv, .var v⟩
  | some u => exact h u hu

theorem isSorted_ofValues (h : ∀ v u, value v = some u → u.sort.subsortOf v.sort) : IsSorted (ofValues value) := by
  intro v
  unfold ofValues
  cases hu : value v with
  | none => exact SortName.subsortOf_refl _
  | some u => simpa [Term.sort_expr] using h v u hu

/-- Replacing variables by terms that have the same value changes no value. -/
theorem subst_ofValues (h : ∀ v u, value v = some u → θ v = u.expr.subst θ) (t : Expr) :
    (t.subst (ofValues value)).subst θ = t.subst θ := by
  rw [subst_subst]
  refine subst_congr fun v _ => ?_
  unfold ofValues
  cases hv : value v with
  | none => exact subst_var v
  | some u => exact (h v u hv).symm

end Expr

namespace Substitution
variable {sorts : String → SortName} {w w' : World} {σ : Substitution} {t : Term} {v x : Var} {θ : Var → Expr}

/-- The bindings are true of the valuation. -/
def Holds (θ : Var → Expr) (σ : Substitution) : Prop := ∀ b ∈ σ.bindings, θ b.1 = b.2.expr.subst θ

/-- Every variable is bound once, to a plain term of its sort that mentions no bound variable. -/
structure IsResolved (sorts : String → SortName) (w : World) (σ : Substitution) : Prop where
  distinct : (σ.bindings.map Prod.fst).Nodup
  plain : ∀ b ∈ σ.bindings, b.2.Plain sorts w
  free : ∀ b ∈ σ.bindings, ∀ x ∈ b.2.expr.vars, σ.get? x = none
  sorted : ∀ b ∈ σ.bindings, b.2.sort.subsortOf b.1.sort

/-- The variables of the bound terms. -/
def Mentions (σ : Substitution) (x : Var) : Prop := ∃ b ∈ σ.bindings, x ∈ b.2.expr.vars

theorem get?_eq_none_iff : σ.get? v = none ↔ ∀ b ∈ σ.bindings, b.1 ≠ v := by
  rw [get?, SortedList.get?, Option.map_eq_none_iff, List.find?_eq_none]
  exact forall₂_congr fun b _ => by simp

theorem Holds.get? (h : σ.Holds θ) {u : Term} (hv : σ.get? v = some u) : θ v = u.expr.subst θ :=
  h _ (mem_bindings hv)

theorem IsResolved.mono (hw : w ≤ w') (h : σ.IsResolved sorts w) : σ.IsResolved sorts w' :=
  ⟨h.distinct, fun b hb => (h.plain b hb).mono hw, h.free, h.sorted⟩

theorem IsResolved.get?_of_mem (hσ : σ.IsResolved sorts w) {b : Var × Term} (hb : b ∈ σ.bindings) :
    σ.get? b.1 = some b.2 := by
  have hsome : (σ.get? b.1).isSome := by
    rw [get?, SortedList.get?, Option.isSome_map]
    exact List.find?_isSome.mpr ⟨b, hb, BEq.rfl⟩
  obtain ⟨u, hu⟩ := Option.isSome_iff_exists.mp hsome
  rw [hu, ← List.inj_on_of_nodup_map hσ.distinct (mem_bindings hu) hb rfl]

/-- What the bindings leave of a term mentions no bound variable. -/
theorem IsResolved.of_mem_vars (hσ : σ.IsResolved sorts w) {t : Expr}
    (hx : x ∈ (t.subst (Expr.ofValues σ.get?)).vars) : σ.get? x = none ∧ (x ∈ t.vars ∨ σ.Mentions x) := by
  obtain ⟨v, hv, hx⟩ := Expr.mem_vars_subst.mp hx
  rcases Expr.mem_vars_ofValues hx with ⟨hnone, rfl⟩ | ⟨u, hu, hx⟩
  · exact ⟨hnone, .inl hv⟩
  · have hb := mem_bindings hu
    exact ⟨hσ.free _ hb x hx, .inr ⟨_, hb, hx⟩⟩

theorem subst_of_free {t : Expr} (h : ∀ x ∈ t.vars, σ.get? x = none) :
    t.subst (Expr.ofValues σ.get?) = t :=
  Expr.subst_id fun x hx => by rw [Expr.ofValues, h x hx]; rfl

theorem makes_substitute_plain {value : Var → Option Term} (ht : t.Plain sorts w)
    (hvalue : ∀ v u, value v = some u → u.Plain sorts w) :
    Makes w (t.substitute value) fun w' u =>
      u.Plain sorts w' ∧ u.expr = t.expr.subst (Expr.ofValues value) := by
  refine Making.mono (Term.makes_substitute ht.knows fun v u hu => (hvalue v u hu).knows)
    fun w' u _ ⟨hu, hexpr⟩ => ⟨⟨hu, ?_⟩, hexpr⟩
  rw [hexpr]
  exact ht.isPlain.subst fun v hv =>
    Expr.isPlain_ofValues (ht.isPlain.named v hv) fun u hu => (hvalue v u hu).isPlain

/-- The bindings are true of the valuation that they are. -/
theorem IsResolved.holds_ofValues (hσ : σ.IsResolved sorts w) : σ.Holds (Expr.ofValues σ.get?) := by
  intro b hb
  rw [subst_of_free (hσ.free b hb), Expr.ofValues, hσ.get?_of_mem hb]
  rfl

theorem IsResolved.makes_apply (hσ : σ.IsResolved sorts w) (ht : t.Plain sorts w) :
    Makes w (σ.apply t) fun w' u =>
      u.Plain sorts w' ∧ u.expr = t.expr.subst (Expr.ofValues σ.get?) :=
  makes_substitute_plain ht fun _ _ hu => hσ.plain _ (mem_bindings hu)

/-- The substitution with one more binding, which is put into the others. -/
structure IsExtension (sorts : String → SortName) (w : World) (σ : Substitution) (v : Var) (t : Term)
    (σ' : Substitution) : Prop where
  resolved : σ'.IsResolved sorts w
  size : σ'.size = σ.size + 1
  get?_eq_none : ∀ x, σ'.get? x = none ↔ x ≠ v ∧ σ.get? x = none
  mentions : ∀ x, σ'.Mentions x → x ∈ t.expr.vars ∨ σ.Mentions x
  holds : ∀ θ, σ'.Holds θ ↔ σ.Holds θ ∧ θ v = t.expr.subst θ

/-- The one binding as a substitution. -/
def single (v : Var) (u : Term) (x : Var) : Option Term := if x = v then some u else none

theorem of_single {u a : Term} (h : single v u x = some a) : x = v ∧ a = u := by
  unfold single at h
  split at h
  · cases h
    exact ⟨‹_›, rfl⟩
  · cases h

/-- The binding `b` becomes `b'` when `u` is put for `v`. -/
structure Becomes (sorts : String → SortName) (w : World) (v : Var) (u : Term) (b b' : Var × Term) :
    Prop where
  key : b'.1 = b.1
  plain : b'.2.Plain sorts w
  expr : b'.2.expr = b.2.expr.subst (Expr.ofValues (single v u))

namespace Becomes
variable {u : Term} {b b' : Var × Term}

theorem mono (hw : w ≤ w') (h : Becomes sorts w v u b b') : Becomes sorts w' v u b b' :=
  ⟨h.key, h.plain.mono hw, h.expr⟩

theorem sort (h : Becomes sorts w v u b b') (hsort : u.sort.subsortOf v.sort) :
    b'.2.sort.subsortOf b.2.sort := by
  rw [← Term.sort_expr, h.expr, ← Term.sort_expr b.2]
  exact (Expr.isSorted_ofValues fun x a ha => by rwa [(of_single ha).1, (of_single ha).2]).subst b.2.expr

theorem of_mem_vars (h : Becomes sorts w v u b b') (habsent : v ∉ u.expr.vars) (hx : x ∈ b'.2.expr.vars) :
    x ≠ v ∧ (x ∈ u.expr.vars ∨ x ∈ b.2.expr.vars) := by
  rw [h.expr] at hx
  obtain ⟨y, hy, hx⟩ := Expr.mem_vars_subst.mp hx
  rcases Expr.mem_vars_ofValues hx with ⟨hnone, rfl⟩ | ⟨a, ha, hmem⟩
  · refine ⟨?_, .inr hy⟩
    rintro rfl
    simp [single] at hnone
  · obtain ⟨rfl, rfl⟩ := of_single ha
    exact ⟨ne_of_mem_of_not_mem hmem habsent, .inl hmem⟩

/-- Where the new binding is true, both say the same. -/
theorem subst_eq (h : Becomes sorts w v u b b') (hvalue : θ v = u.expr.subst θ) :
    b'.2.expr.subst θ = b.2.expr.subst θ := by
  rw [h.expr, Expr.subst_ofValues fun x a ha => ?_]
  obtain ⟨rfl, rfl⟩ := of_single ha
  exact hvalue

end Becomes

/-! ### A binding more -/

section Insert
variable {u : Term} {bs : List (Var × Term)}

/-- Bindings of the same variables. -/
theorem get?_of_keys (hbs : List.Forall₂ (fun b b' => b'.1 = b.1) σ.bindings bs) (x : Var) :
    (⟨bs⟩ : Substitution).get? x = none ↔ σ.get? x = none := by
  rw [get?_eq_none_iff, get?_eq_none_iff]
  refine ⟨fun h b hb => ?_, fun h b' hb' => ?_⟩
  · obtain ⟨b', hb', hkey⟩ := PairedLists.exists_mem hbs hb
    exact hkey ▸ h b' hb'
  · obtain ⟨b, hb, hkey⟩ := PairedLists.exists_mem hbs.flip hb'
    exact hkey ▸ h b hb

theorem get?_becomes (hbs : List.Forall₂ (Becomes sorts w v u) σ.bindings bs) (x : Var) :
    (⟨bs⟩ : Substitution).get? x = none ↔ σ.get? x = none :=
  get?_of_keys (hbs.imp fun _ _ h => h.key) x

/-- A new binding stands beside the others. -/
theorem perm_insert (hv : (⟨bs⟩ : Substitution).get? v = none) :
    (Substitution.insert ⟨bs⟩ v u).bindings.Perm ((v, u) :: bs) :=
  SortedList.perm_put fun e he heq => get?_eq_none_iff.mp hv e he (Var.compareKeys_eq_iff.mp heq).symm

theorem mem_insert (hv : (⟨bs⟩ : Substitution).get? v = none) {b : Var × Term} :
    b ∈ (Substitution.insert ⟨bs⟩ v u).bindings ↔ b = (v, u) ∨ b ∈ bs :=
  (perm_insert hv).mem_iff.trans List.mem_cons

theorem get?_insert_eq_none (hbs : List.Forall₂ (Becomes sorts w v u) σ.bindings bs) (x : Var) :
    (Substitution.insert ⟨bs⟩ v u).get? x = none ↔ x ≠ v ∧ σ.get? x = none := by
  rw [get?_insert, ← get?_becomes hbs x]
  split
  · simp [*]
  · simp [*, eq_comm]

variable (hbs : List.Forall₂ (Becomes sorts w v u) σ.bindings bs) (hv : σ.get? v = none)
include hbs hv

/-- The bindings are the new one and what the others become. -/
theorem mem_insert_becomes {b' : Var × Term} (hb' : b' ∈ (Substitution.insert ⟨bs⟩ v u).bindings) :
    b' = (v, u) ∨ ∃ b ∈ σ.bindings, Becomes sorts w v u b b' := by
  refine ((mem_insert ((get?_becomes hbs v).mpr hv)).mp hb').imp_right fun hb' => ?_
  obtain ⟨b, hb, h⟩ := PairedLists.exists_mem hbs.flip hb'
  exact ⟨b, hb, h⟩

theorem isResolved_insert (hσ : σ.IsResolved sorts w) (hu : u.Plain sorts w) (hsort : u.sort.subsortOf v.sort)
    (hfree : ∀ x ∈ u.expr.vars, σ.get? x = none) (habsent : v ∉ u.expr.vars) :
    (Substitution.insert ⟨bs⟩ v u).IsResolved sorts w where
  distinct := by
    have hnew := (get?_becomes hbs v).mpr hv
    have hkeys : σ.bindings.map Prod.fst = bs.map Prod.fst :=
      PairedLists.map_eq (hbs.imp fun _ _ h => h.key.symm)
    refine ((perm_insert hnew).map Prod.fst).nodup_iff.mpr (List.nodup_cons.mpr ⟨fun hmem => ?_, hkeys ▸ hσ.distinct⟩)
    obtain ⟨e, he, heq⟩ := List.mem_map.mp hmem
    exact get?_eq_none_iff.mp hnew e he heq
  plain b' hb' := by
    rcases mem_insert_becomes hbs hv hb' with rfl | ⟨b, -, h⟩
    · exact hu
    · exact h.plain
  free b' hb' x hx := by
    refine (get?_insert_eq_none hbs x).mpr ?_
    rcases mem_insert_becomes hbs hv hb' with rfl | ⟨b, hb, h⟩
    · exact ⟨ne_of_mem_of_not_mem hx habsent, hfree x hx⟩
    · obtain ⟨hne, hx⟩ := h.of_mem_vars habsent hx
      exact ⟨hne, hx.elim (hfree x) (hσ.free b hb x)⟩
  sorted b' hb' := by
    rcases mem_insert_becomes hbs hv hb' with rfl | ⟨b, hb, h⟩
    · exact hsort
    · exact h.key ▸ SortName.subsortOf_trans (h.sort hsort) (hσ.sorted b hb)

theorem holds_insert : (Substitution.insert ⟨bs⟩ v u).Holds θ ↔ σ.Holds θ ∧ θ v = u.expr.subst θ := by
  have hmem {b : Var × Term} := mem_insert (b := b) (u := u) ((get?_becomes hbs v).mpr hv)
  refine ⟨fun h => ?_, fun ⟨h, hvalue⟩ b' hb' => ?_⟩
  · have hvalue : θ v = u.expr.subst θ := h (v, u) (hmem.mpr (.inl rfl))
    refine ⟨fun b hb => ?_, hvalue⟩
    obtain ⟨b', hb', hbecomes⟩ := PairedLists.exists_mem hbs hb
    rw [← hbecomes.key, ← hbecomes.subst_eq hvalue]
    exact h b' (hmem.mpr (.inr hb'))
  · rcases mem_insert_becomes hbs hv hb' with rfl | ⟨b, hb, hbecomes⟩
    · exact hvalue
    · rw [hbecomes.key, hbecomes.subst_eq hvalue]
      exact h b hb

/-- A binding is added to bindings that it is put into. -/
theorem isExtension_insert (hσ : σ.IsResolved sorts w) (hu : u.Plain sorts w) (hexpr : u.expr = t.expr)
    (hsort : u.sort.subsortOf v.sort) (hfree : ∀ x ∈ t.expr.vars, σ.get? x = none) (habsent : v ∉ t.expr.vars) :
    IsExtension sorts w σ v t (Substitution.insert ⟨bs⟩ v u) := by
  rw [← hexpr] at habsent hfree
  refine ⟨isResolved_insert hbs hv hσ hu hsort hfree habsent, ?_, get?_insert_eq_none hbs,
    fun x ⟨b', hb', hx⟩ => ?_, fun θ => ?_⟩
  · rw [size, (perm_insert ((get?_becomes hbs v).mpr hv)).length_eq, List.length_cons, ← hbs.length_eq, size]
  · rw [← hexpr]
    rcases mem_insert_becomes hbs hv hb' with rfl | ⟨b, hb, h⟩
    · exact .inl hx
    · exact (h.of_mem_vars habsent hx).2.imp_right fun hx => ⟨b, hb, hx⟩
  · rw [← hexpr]
    exact holds_insert hbs hv

end Insert

theorem makes_extend (hσ : σ.IsResolved sorts w) (ht : t.Plain sorts w) (hsort : t.sort.subsortOf v.sort)
    (hv : σ.get? v = none) (hfree : ∀ x ∈ t.expr.vars, σ.get? x = none) (habsent : v ∉ t.expr.vars) :
    Makes w (σ.extend v t) fun w' σ' => IsExtension sorts w' σ v t σ' := by
  unfold extend
  refine Making.bind (hσ.makes_apply ht) fun w₁ u hw₁ ⟨hu, hexpr⟩ => ?_
  rw [subst_of_free hfree] at hexpr
  have hbindings : Makes w₁ (σ.bindings.mapM fun b => do return (b.1, ← b.2.substitute (single v u)))
      fun w₂ bs => List.Forall₂ (Becomes sorts w₂ v u) σ.bindings bs := by
    refine Making.mapM (fun w w' b b' hw h => h.mono hw) fun b hb w₂ hw₂ => ?_
    have hb := (hσ.plain b hb).mono (World.le_trans hw₁ hw₂)
    refine Making.bind (makes_substitute_plain hb fun x a ha => ?_) fun w₃ a _ ha =>
      Making.pure ⟨rfl, ha.1, ha.2⟩
    rw [(of_single ha).2]
    exact hu.mono hw₂
  refine Making.bind hbindings fun w₂ bs hw₂ hbs => Making.pure ?_
  rw [← Term.sort_expr, ← hexpr, Term.sort_expr] at hsort
  exact isExtension_insert hbs hv (hσ.mono (World.le_trans hw₁ hw₂)) (hu.mono hw₂) hexpr hsort hfree habsent

end Substitution

end RuleCompiler
