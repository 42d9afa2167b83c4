import RuleCompiler.Proofs.SortedList
import RuleCompiler.Substitution

/-! # Substitutions

A substitution is a map from variables to terms. Binding a variable that is not bound leaves all
others alone, so a match only ever extends the bindings that it starts from. -/

namespace RuleCompiler

theorem Var.compareKeys_eq_iff {v w : Var} : v.compareKeys w = .eq ↔ v = w := by
  obtain ⟨vn, ⟨vs⟩, vi⟩ := v
  obtain ⟨wn, ⟨ws⟩, wi⟩ := w
  simp only [compareKeys, Ordering.then_eq_eq, Std.LawfulEqCmp.compare_eq_iff_eq, mk.injEq,
    SortName.mk.injEq]
  exact ⟨fun h => ⟨h.1, h.2.2, h.2.1⟩, fun h => ⟨h.1, h.2.2, h.2.1⟩⟩

namespace Substitution

variable {σ τ ρ : Substitution} {v w : Var} {t : Term}

theorem get?_insert (σ : Substitution) (v w : Var) (t : Term) :
    (σ.insert v t).get? w = if v = w then some t else σ.get? w := by
  have heq {v w : Var} : v.compareKeys w = .eq ↔ v == w := by rw [Var.compareKeys_eq_iff, beq_iff_eq]
  rw [insert, get?, SortedList.get?_put heq]
  simp only [beq_iff_eq]
  rfl

/-- The value of a variable is listed with it. -/
theorem mem_bindings (h : σ.get? v = some t) : (v, t) ∈ σ.bindings := by
  obtain ⟨e, he, rfl⟩ := Option.map_eq_some_iff.mp h
  have hv := List.find?_some (p := fun e : Var × Term => e.1 == v) he
  rw [← beq_iff_eq.mp hv]
  exact List.mem_of_find?_eq_some he

/-- A binding is the one that is made or was there before. -/
theorem of_bind? {u : Term} (h : σ.bind? v t = some τ) (hw : τ.get? w = some u) :
    (w = v ∧ u = t) ∨ σ.get? w = some u := by
  unfold bind? at h
  split at h
  · split at h
    · cases h
      exact .inr hw
    · cases h
  · cases h
    rw [get?_insert] at hw
    split at hw
    · rename_i heq
      cases hw
      exact .inl ⟨heq.symm, rfl⟩
    · exact .inr hw

/-! ### Extension -/

/-- Every binding of the one is a binding of the other. -/
def Extends (τ σ : Substitution) : Prop := ∀ v t, σ.get? v = some t → τ.get? v = some t

theorem Extends.refl (σ : Substitution) : σ.Extends σ := fun _ _ h => h

theorem Extends.trans (h : ρ.Extends τ) (h' : τ.Extends σ) : ρ.Extends σ :=
  fun v t ht => h v t (h' v t ht)

theorem Extends.isSome (h : τ.Extends σ) (hv : (σ.get? v).isSome) : (τ.get? v).isSome := by
  obtain ⟨t, ht⟩ := Option.isSome_iff_exists.mp hv
  rw [h v t ht]
  rfl

theorem bind?_extends (h : σ.bind? v t = some τ) : τ.Extends σ := by
  unfold bind? at h
  split at h
  · split at h
    · cases h
      exact .refl σ
    · cases h
  · rename_i hv
    cases h
    intro w u hw
    rw [get?_insert, if_neg, hw]
    rintro rfl
    rw [hv] at hw
    cases hw

/-- The variable is bound to a term equal to the one given. -/
theorem bind?_get? (h : σ.bind? v t = some τ) : ∃ u, τ.get? v = some u ∧ u == t := by
  unfold bind? at h
  split at h
  · rename_i bound hv
    split at h
    · rename_i heq
      cases h
      exact ⟨bound, hv, heq⟩
    · cases h
  · cases h
    exact ⟨t, by rw [get?_insert, if_pos rfl], BEq.rfl⟩

end Substitution

end RuleCompiler
