import RuleCompiler.Proofs.Formula.Bindings
import RuleCompiler.Proofs.Formula.Choices
import RuleCompiler.Proofs.Formula.Parts
import RuleCompiler.Proofs.Rebuilding.Instances

/-! # Bindings that are read once

However a formula comes about, no bound variable occurs in a bound term: a value is instantiated before it
is bound, and a new binding is put into the others. So a term that was read through the bindings does not
change when it is read through them again. -/

namespace RuleCompiler

open Build (Leads)
open Formula (Equation)
open World (HasOver EquationsOver)

namespace Substitution
variable {w w' : World} {σ τ : Substitution} {t u : Term} {v x : Var}

/-- Bindings that are made one after the other, each of a variable that is neither bound nor to be ignored, to
a term of its sort that mentions neither it nor a bound variable. -/
inductive Grown : Substitution → Prop where
  | empty : Grown {}
  | extend {σ τ : Substitution} {v : Var} {t : Term} {n k : Nat} (hσ : Grown σ) (hv : σ.contains v = false)
      (hnamed : v.isDontCare = false) (hsort : t.sort.subsortOf v.sort)
      (hfree : ∀ x ∈ t.vars, σ.contains x = false ∧ x ≠ v) (h : σ.extend v t n = (.ok τ, k)) : Grown τ

/-- What is known of bindings in a world. -/
structure IsIdempotent (w : World) (σ : Substitution) : Prop where
  free : ∀ b ∈ σ.bindings, w.HasOver (fun x => σ.contains x = false) b.2
  named : ∀ b ∈ σ.bindings, b.1.isDontCare = false
  grown : σ.Grown

theorem contains_eq_false : σ.contains v = false ↔ σ.get? v = none := by
  rw [contains, Option.isSome_eq_false_iff, Option.isNone_iff_eq_none]

theorem IsIdempotent.mono (hw : w ≤ w') (h : σ.IsIdempotent w) : σ.IsIdempotent w' :=
  ⟨fun b hb => (h.free b hb).mono hw, h.named, h.grown⟩

theorem isIdempotent_empty (w : World) : IsIdempotent w {} := ⟨List.forall_mem_nil _, List.forall_mem_nil _, .empty⟩

/-- What is read through the bindings mentions no bound variable. -/
theorem leads_apply (hσ : σ.IsIdempotent w) (ht : w.Has t) :
    Leads w (fun w u => w.HasOver (fun x => σ.contains x = false) u) (σ.apply t) :=
  World.leads_substitute (P := fun _ => True) ⟨ht, fun _ _ => trivial⟩
    (fun _ _ _ hu => hσ.free _ (mem_bindings hu)) fun _ _ hnone => contains_eq_false.mpr hnone

/-- A term that mentions no bound variable stays what it is. -/
theorem apply_of_free (h : ∀ x ∈ u.vars, σ.contains x = false) (k : Nat) : (σ.apply u k).1 = .ok u := by
  have htouches : σ.touches u = false := List.any_eq_false.mpr fun x hx => by rw [h x hx]; exact Bool.false_ne_true
  obtain ⟨_, m, hrun, -, rfl⟩ := gives_apply_self htouches k
  rw [hrun]

/-- One binding more, which is put into the others. -/
theorem leads_extend (hσ : σ.IsIdempotent w) (hv : σ.contains v = false) (hnamed : v.isDontCare = false)
    (hsort : t.sort.subsortOf v.sort) (ht : w.HasOver (fun x => σ.contains x = false) t) (habsent : v ∉ t.vars) :
    Leads w (fun w τ => τ.IsIdempotent w) (σ.extend v t) := by
  let Q (x : Var) : Prop := σ.contains x = false ∧ x ≠ v
  have hfree : ∀ x ∈ t.vars, Q x := fun x hx => ⟨ht.vars x hx, ne_of_mem_of_not_mem hx habsent⟩
  let R (w : World) (τ : Substitution) : Prop :=
    (∀ x, Q x → τ.contains x = false) ∧ ∀ b ∈ τ.bindings, b.1.isDontCare = false ∧ w.HasOver Q b.2
  have hrun : Leads w R (σ.extend v t) := by
    unfold extend
    have hvalue : Leads w (fun w u => w.HasOver Q u) (σ.apply t) :=
      World.leads_substitute (P := Q) ⟨ht.has, hfree⟩
        (fun x _ hx hu => by rw [contains_eq_false.mp hx.1] at hu; cases hu) fun _ hx _ => hx
    refine hvalue.bind fun w₁ u hw₁ hu => ?_
    have hothers : Leads w₁ (fun w bs => List.Forall₂ (fun b b' => b'.1 = b.1 ∧ w.HasOver Q b'.2) σ.bindings bs)
        (σ.bindings.mapM fun b => do return (b.1, ← b.2.substitute (single v u))) := by
      refine Leads.mapM (fun hw h => ⟨h.1, h.2.mono hw⟩) fun b hb w₂ hw₂ => ?_
      refine (World.leads_substitute ((hσ.free b hb).mono (le_trans hw₁ hw₂)) (fun x a _ ha => ?_)
        fun x hx hnone => ⟨hx, ?_⟩).bind fun w₃ a _ ha => .pure ⟨rfl, ha⟩
      · rw [(of_single ha).2]
        exact hu.mono hw₂
      · rintro rfl
        simp [single] at hnone
    refine hothers.bind fun w₂ bs hw₂ hbs => .pure ?_
    have hkeys := get?_of_keys (hbs.imp fun _ _ h => h.1)
    refine ⟨fun x hx => contains_eq_false.mpr ?_, fun b hb => ?_⟩
    · rw [get?_insert, if_neg hx.2.symm]
      exact (hkeys x).mpr (contains_eq_false.mp hx.1)
    · rcases (mem_insert ((hkeys v).mpr (contains_eq_false.mp hv))).mp hb with rfl | hb
      · exact ⟨hnamed, hu.mono hw₂⟩
      · obtain ⟨b₀, hb₀, hkey, hover⟩ := PairedLists.exists_mem hbs.flip hb
        exact ⟨hkey ▸ hσ.named b₀ hb₀, hover⟩
  refine hrun.with_run.mono fun w' τ _ h => ?_
  obtain ⟨⟨hcontains, hbindings⟩, hrun⟩ := h
  exact ⟨fun b hb => (hbindings b hb).2.imp hcontains, fun b hb => (hbindings b hb).1,
    .extend hσ.grown hv hnamed hsort hfree hrun⟩

end Substitution

/-! ### Lookups -/

namespace Lookup
variable {w w' : World} {Q : Var → Prop} {d : Lookup} {l r t u : Term}

theorem has_of_ofCall? (ht : w.Has t) (hu : w.Has u) (h : ofCall? t u = some d) : ∀ c ∈ d.terms, w.Has c := by
  have hargs {m : Node Term} (hn : t.node = m) : ∀ c ∈ m.children, w.Has c :=
    fun c hc => ht.child (by rwa [Term.children, hn])
  unfold ofCall? at h
  split at h
  · rename_i a b _ hn
    obtain ⟨ha, hb⟩ := List.forall_mem_cons.mp (hargs hn)
    have hb := List.forall_mem_singleton.mp hb
    repeat' split at h
    all_goals cases h
    all_goals simp [terms, ha, hb, hu]
  · rename_i a _ hn
    have ha := List.forall_mem_singleton.mp (hargs hn)
    repeat' split at h
    all_goals cases h
    all_goals simp [terms, ha, hu]
  · cases h

theorem has_of_ofEquation? (hl : w.Has l) (hr : w.Has r) (h : ofEquation? l r = some d) :
    ∀ c ∈ d.terms, w.Has c := by
  unfold ofEquation? at h
  cases hcall : ofCall? l r with
  | some d' =>
    rw [hcall] at h
    cases h
    exact has_of_ofCall? hl hr hcall
  | none =>
    rw [hcall] at h
    exact has_of_ofCall? hr hl h

/-- The terms of a lookup are changed one after the other. -/
theorem leads_mapTerms {f : Term → Build Term}
    (hf : ∀ t ∈ d.terms, ∀ w', w ≤ w' → Leads w' (fun w u => w.Has u) (f t)) :
    Leads w (fun w d => ∀ t ∈ d.terms, w.Has t) (d.mapTerms f) := by
  cases d with
  | mapValue | setMember | listItem =>
    refine (hf _ (by simp [terms]) w (le_refl w)).bind fun w₁ _ hw₁ ht => ?_
    refine (hf _ (by simp [terms]) w₁ hw₁).bind fun w₂ _ hw₂ hu => ?_
    refine (hf _ (by simp [terms]) w₂ (le_trans hw₁ hw₂)).bind fun w₃ _ hw₃ hv => .pure ?_
    simp [terms, hv, hu.mono hw₃, ht.mono (World.le_trans hw₂ hw₃)]
  | mapChoice | setChoice =>
    refine (hf _ (by simp [terms]) w (le_refl w)).bind fun w₁ _ hw₁ ht => ?_
    refine (hf _ (by simp [terms]) w₁ hw₁).bind fun w₂ _ hw₂ hu => .pure ?_
    simp [terms, hu, ht.mono hw₂]

/-- What a lookup comes to is about its terms and their parts. -/
theorem has_of_resolve (hd : ∀ t ∈ d.terms, w.Has t) (h : d.resolve = .equation l r) : w.Has l ∧ w.Has r := by
  have hpart {t c : Term} {m : Node Term} (ht : w.Has t) (hn : t.node = m) (hc : c ∈ m.children) : w.Has c :=
    ht.child (by rwa [Term.children, hn])
  have hbool (b : Bool) : w.Has (.bool b) := (HasOver.of_isCanonical (Q := fun _ => True) rfl).has
  cases d with
  | mapValue m key value =>
    simp only [terms, List.forall_mem_cons] at hd
    simp only [resolve] at h
    split at h
    · rename_i es base hn
      split at h
      · split at h
        · rename_i found hfound
          cases h
          obtain ⟨e, he, rfl⟩ := Option.map_eq_some_iff.mp hfound
          refine ⟨hd.2.2.1, hpart hd.1 hn (List.mem_append_left _ (List.mem_flatMap.mpr ⟨e, ?_, by simp⟩))⟩
          exact List.mem_of_find?_eq_some he
        · split at h <;> cases h
      · cases h
    · cases h
  | setMember s e holds =>
    simp only [terms, List.forall_mem_cons] at hd
    simp only [resolve] at h
    repeat' split at h
    all_goals cases h
    all_goals exact ⟨hd.2.2.1, hbool _⟩
  | listItem s i value =>
    simp only [terms, List.forall_mem_cons] at hd
    simp only [resolve] at h
    split at h
    · rename_i items base right n hn _
      split at h
      · split at h
        · rename_i item hitem
          cases h
          refine ⟨hd.2.2.1, hpart hd.1 hn (List.mem_append_left _ ?_)⟩
          unfold itemAt? at hitem
          dsimp only at hitem
          repeat' split at hitem
          all_goals first | cases hitem | exact List.mem_of_getElem? hitem
        · cases h
      · cases h
    · cases h
  | mapChoice | setChoice =>
    simp only [resolve] at h
    repeat' split at h
    all_goals cases h

end Lookup

/-! ### Formulas -/

namespace World
variable {w w' : World} {Q : Var → Prop} {es fs : List Equation}

/-- Equations between terms of the world. -/
def Equates (w : World) (es : List Equation) : Prop := ∀ e ∈ es, w.Has e.1 ∧ w.Has e.2

theorem Equates.mono (hw : w ≤ w') (h : w.Equates es) : w'.Equates es :=
  fun e he => ⟨(h e he).1.mono hw, (h e he).2.mono hw⟩

theorem EquationsOver.equates (h : w.EquationsOver Q es) : w.Equates es :=
  fun e he => ⟨(h e he).1.has, (h e he).2.has⟩

theorem Equates.append (h : w.Equates es) (h' : w.Equates fs) : w.Equates (es ++ fs) :=
  List.forall_mem_append.mpr ⟨h, h'⟩

theorem equates_single {l r : Term} (hl : w.Has l) (hr : w.Has r) : w.Equates [(l, r)] :=
  List.forall_mem_singleton.mpr ⟨hl, hr⟩

end World

namespace Formula
variable {w w' : World} {f g : Formula} {d : Lookup} {l r t u : Term} {v : Var} {es : List Equation}

/-- What is known of a formula in a world. -/
structure IsIdempotent (w : World) (f : Formula) : Prop where
  substitution : f.substitution.IsIdempotent w
  equations : w.Equates f.equations
  lookups : ∀ d ∈ f.lookups, ∀ t ∈ d.terms, w.Has t

namespace IsIdempotent

theorem mono (hw : w ≤ w') (h : f.IsIdempotent w) : f.IsIdempotent w' :=
  ⟨h.substitution.mono hw, h.equations.mono hw, fun d hd t ht => (h.lookups d hd t ht).mono hw⟩

theorem truth (w : World) (functions : List String) : (truth functions).IsIdempotent w :=
  ⟨Substitution.isIdempotent_empty w, List.forall_mem_nil _, List.forall_mem_nil _⟩

theorem falsify (h : f.IsIdempotent w) : f.falsify.IsIdempotent w :=
  ⟨h.substitution, List.forall_mem_nil _, List.forall_mem_nil _⟩

theorem keepEquation (h : f.IsIdempotent w) (hl : w.Has l) (hr : w.Has r) : (f.keepEquation l r).IsIdempotent w := by
  unfold Formula.keepEquation
  split
  · exact h
  · exact ⟨h.substitution, h.equations.append (World.equates_single hl hr), h.lookups⟩

theorem keepLookup (h : f.IsIdempotent w) (hd : ∀ t ∈ d.terms, w.Has t) : (f.keepLookup d).IsIdempotent w := by
  unfold Formula.keepLookup
  split
  · exact h
  · exact ⟨h.substitution, h.equations,
      List.forall_mem_append.mpr ⟨h.lookups, List.forall_mem_singleton.mpr hd⟩⟩

end IsIdempotent

theorem leads_apply (hf : f.IsIdempotent w) (ht : w.Has t) :
    Leads w (fun w u => w.HasOver (fun x => f.substitution.contains x = false) u) (f.apply t) :=
  Substitution.leads_apply hf.substitution ht

/-- The lookup with its terms read through the bindings. -/
theorem leads_applyLookup (hf : f.IsIdempotent w) (hd : ∀ t ∈ d.terms, w.Has t) :
    Leads w (fun w d => ∀ t ∈ d.terms, w.Has t) (d.mapTerms f.apply) :=
  Lookup.leads_mapTerms fun t ht _ hw =>
    (leads_apply (hf.mono hw) ((hd t ht).mono hw)).mono fun _ _ _ hu => hu.has

/-- What a move may do to the formula `f`. -/
def Move.IsSound (w : World) (f : Formula) : Move → Prop
  | advance g more => g.IsIdempotent w ∧ w.Equates more
  | bind v u => f.substitution.contains v = false ∧ w.HasOver (fun x => f.substitution.contains x = false) u ∧
      v.isDontCare = false ∧ u.sort.subsortOf v.sort ∧ v ∉ u.vars
  | stop g => g.IsIdempotent w

theorem leads_move (hf : f.IsIdempotent w) (hl : w.HasOver (fun x => f.substitution.contains x = false) l)
    (hr : w.HasOver (fun x => f.substitution.contains x = false) r) :
    Leads w (fun w m => m.IsSound w f) (f.move l r) := by
  unfold move
  refine .ite (fun _ => .pure ⟨hf, List.forall_mem_nil _⟩) fun _ => ?_
  split
  · rename_i d hd
    refine (leads_applyLookup hf (Lookup.has_of_ofEquation? hl.has hr.has hd)).bind fun w' d hw hd => ?_
    have hf := hf.mono hw
    split
    · rename_i a b hresolve
      obtain ⟨ha, hb⟩ := Lookup.has_of_resolve hd hresolve
      exact .pure ⟨hf, World.equates_single ha hb⟩
    · exact .pure ⟨hf, List.forall_mem_nil _⟩
    · exact .pure hf.falsify
    · exact .pure ⟨hf.keepLookup hd, List.forall_mem_nil _⟩
  · refine (Decomposition.leads_of f.isCall hl hr).bind fun w' d hw hd => ?_
    have hf := hf.mono hw
    cases d with
    | holds => exact .pure ⟨hf, List.forall_mem_nil _⟩
    | parts es => exact .pure ⟨hf, fun e he => EquationsOver.equates hd e (List.mem_reverse.mp he)⟩
    | binding v u => exact .pure hd
    | undecided a b => exact .pure ⟨hf.keepEquation hd.1.has hd.2.has, List.forall_mem_nil _⟩
    | fails => exact .pure hf.falsify

theorem leads_extend (hf : f.IsIdempotent w) (hv : f.substitution.contains v = false) (hnamed : v.isDontCare = false)
    (hsort : t.sort.subsortOf v.sort) (ht : w.HasOver (fun x => f.substitution.contains x = false) t)
    (habsent : v ∉ t.vars) : Leads w (fun w g => g.IsIdempotent w) (f.extend v t) :=
  (Substitution.leads_extend hf.substitution hv hnamed hsort ht habsent).bind fun _ _ hw hτ =>
    .pure ⟨hτ, (hf.mono hw).equations, (hf.mono hw).lookups⟩

/-! ### Working through equations -/

theorem leads_solveUpTo {bound : Formula → List Equation → Build Formula}
    (hbound : ∀ {w f es}, f.IsIdempotent w → w.Equates es → Leads w (fun w g => g.IsIdempotent w) (bound f es)) :
    ∀ (n : Nat) {w : World} {f : Formula} {work : List Equation}, f.IsIdempotent w → w.Equates work →
      Leads w (fun w g => g.IsIdempotent w) (solveUpTo bound n f work)
  | _, w, f, [], hf, _ => by
    rw [solveUpTo]
    exact .pure hf
  | 0, w, f, e :: work, hf, _ => .pure hf
  | n + 1, w, f, e :: work, hf, hwork => by
    rw [solveUpTo]
    obtain ⟨⟨hl, hr⟩, hwork⟩ := List.forall_mem_cons.mp hwork
    refine .ite (fun _ => .pure hf) fun _ => ?_
    refine (leads_apply hf hl).bind fun w₁ l hw₁ hl => ?_
    refine (leads_apply (hf.mono hw₁) (hr.mono hw₁)).bind fun w₂ r hw₂ hr => ?_
    have hw := le_trans hw₁ hw₂
    refine (leads_move (hf.mono hw) (hl.mono hw₂) hr).bind fun w₃ m hw₃ hm => ?_
    have hw := le_trans hw hw₃
    have hwork : w₃.Equates work := World.Equates.mono hw hwork
    cases m with
    | advance g more => exact leads_solveUpTo hbound n hm.1 (hm.2.append hwork)
    | bind v u =>
      obtain ⟨hv, hu, hnamed, hsort, habsent⟩ := hm
      exact (leads_extend (hf.mono hw) hv hnamed hsort hu habsent).bind fun w₄ g hw₄ hg =>
        hbound hg (hwork.mono hw₄)
    | stop g => exact .pure hm

theorem leads_weightOf (hf : f.IsIdempotent w) (ht : w.Has t) : Leads w (fun _ _ => True) (f.weightOf t) :=
  .tryCatch ((leads_apply hf ht).bind fun _ _ _ _ => .pure trivial) fun _ _ _ => .pure trivial

theorem leads_solveBinding : ∀ (n : Nat) {w : World} {f : Formula} {work : List Equation}, f.IsIdempotent w →
    w.Equates work → Leads w (fun w g => g.IsIdempotent w) (solveBinding n f work)
  | 0, w, f, _, hf, _ => .pure hf
  | n + 1, w, f, work, hf, hwork => by
    rw [solveBinding]
    have hweights : Leads w (fun _ _ => True)
        (work.mapM fun e => do return (← f.weightOf e.1) + (← f.weightOf e.2)) := by
      refine (Leads.mapM_all (r := fun _ _ => True) (fun _ _ => trivial) fun e he w' hw => ?_).mono
        fun _ _ _ _ => trivial
      obtain ⟨hl, hr⟩ := hwork e he
      refine (leads_weightOf (hf.mono hw) (hl.mono hw)).bind fun w₁ _ hw₁ _ => ?_
      have hw := le_trans hw hw₁
      exact (leads_weightOf (hf.mono hw) (hr.mono hw)).bind fun _ _ _ _ => .pure trivial
    exact hweights.bind fun w' _ hw _ => leads_solveUpTo (leads_solveBinding n) _ (hf.mono hw) (hwork.mono hw)

theorem leads_solve (hf : f.IsIdempotent w) (hes : w.Equates es) :
    Leads w (fun w g => g.IsIdempotent w) (f.solve es) :=
  leads_solveBinding _ hf hes

/-! ### Conjunctions -/

theorem leads_addLookup (hf : f.IsIdempotent w) (hd : ∀ t ∈ d.terms, w.Has t) :
    Leads w (fun w g => g.IsIdempotent w) (f.addLookup d) := by
  unfold addLookup
  refine .ite (fun _ => .pure hf) fun _ => (leads_applyLookup hf hd).bind fun w' d hw hd => ?_
  have hf := hf.mono hw
  split
  · rename_i hresolve
    obtain ⟨hl, hr⟩ := Lookup.has_of_resolve hd hresolve
    exact leads_solve hf (World.equates_single hl hr)
  · exact .pure hf
  · exact .pure hf.falsify
  · exact .pure (hf.keepLookup hd)

theorem leads_add (hf : f.IsIdempotent w) (hl : w.Has l) (hr : w.Has r) :
    Leads w (fun w g => g.IsIdempotent w) (f.add l r) := by
  unfold add
  refine .ite (fun _ => .pure hf) fun _ => ?_
  split
  · rename_i hd
    exact leads_addLookup hf (Lookup.has_of_ofEquation? hl hr hd)
  · exact leads_solve hf (World.equates_single hl hr)

theorem leads_addEquations (hf : f.IsIdempotent w) (hes : w.Equates es) :
    Leads w (fun w g => g.IsIdempotent w) (f.addEquations es) :=
  .foldlM hf fun _ _ hw hg e he => leads_add hg ((hes e he).1.mono hw) ((hes e he).2.mono hw)

theorem leads_addLookups {ds : List Lookup} (hf : f.IsIdempotent w) (hds : ∀ d ∈ ds, ∀ t ∈ d.terms, w.Has t) :
    Leads w (fun w g => g.IsIdempotent w) (f.addLookups ds) :=
  .foldlM hf fun _ _ hw hg d hd => leads_addLookup hg fun t ht => (hds d hd t ht).mono hw

theorem leads_addSubstitution {σ : Substitution} (hf : f.IsIdempotent w) (hσ : ∀ t ∈ σ.terms, w.Has t) :
    Leads w (fun w g => g.IsIdempotent w) (f.addSubstitution σ) := by
  refine .foldlM hf fun w' g hw hg b hb => ?_
  refine (World.leads_var w' b.1).bind fun w₁ node hw₁ hnode => ?_
  exact leads_add (hg.mono hw₁) hnode.1 ((hσ b.2 (List.mem_map_of_mem hb)).mono (le_trans hw hw₁))

/-- The terms that a formula is about are those of its parts. -/
theorem forall_mem_terms {P : Term → Prop} : (∀ t ∈ f.terms, P t) ↔ (∀ t ∈ f.substitution.terms, P t) ∧
    (∀ e ∈ f.equations, P e.1 ∧ P e.2) ∧ ∀ d ∈ f.lookups, ∀ t ∈ d.terms, P t := by
  simp only [terms, List.forall_mem_append, List.forall_mem_flatMap, List.forall_mem_cons, List.not_mem_nil,
    false_implies, implies_true, and_true, and_assoc]

theorem leads_addAll (hf : f.IsIdempotent w) (hg : ∀ t ∈ g.terms, w.Has t) :
    Leads w (fun w h => h.IsIdempotent w) (f.addAll g) := by
  obtain ⟨hσ, hes, hds⟩ := forall_mem_terms.mp hg
  unfold addAll
  refine .ite (fun _ => .pure hf.falsify) fun _ => ?_
  refine (leads_addSubstitution hf hσ).bind fun w₁ f₁ hw₁ hf₁ => ?_
  refine (leads_addEquations hf₁ (World.Equates.mono hw₁ hes)).bind fun w₂ f₂ hw₂ hf₂ => ?_
  exact leads_addLookups hf₂ fun d hd t ht => (hds d hd t ht).mono (le_trans hw₁ hw₂)

theorem leads_simplifyRounds : ∀ (n : Nat) {w : World} {f : Formula}, f.IsIdempotent w →
    Leads w (fun w g => g.IsIdempotent w) (simplifyRounds n f)
  | 0, w, f, hf => .pure hf
  | n + 1, w, f, hf => by
    rw [simplifyRounds]
    have hreadd : Leads w (fun w g => g.IsIdempotent w) f.readd := by
      have hcleared : IsIdempotent w { f with equations := [], lookups := [] } :=
        ⟨hf.substitution, List.forall_mem_nil _, List.forall_mem_nil _⟩
      refine (leads_addEquations hcleared hf.equations).bind fun w' g hw hg => ?_
      exact leads_addLookups hg fun d hd t ht => (hf.lookups d hd t ht).mono hw
    refine .ite (fun _ => .pure hf) fun _ => hreadd.bind fun w' g hw hg => ?_
    exact .ite (fun _ => .pure hg) fun _ => leads_simplifyRounds n hg

theorem leads_simplify (hf : f.IsIdempotent w) : Leads w (fun w g => g.IsIdempotent w) f.simplify :=
  leads_simplifyRounds _ hf

theorem leads_conjoin? (hf : f.IsIdempotent w) (hes : w.Equates es) :
    Leads w (fun w o => ∀ g, o = some g → g.IsIdempotent w) (f.conjoin? es) := by
  unfold conjoin?
  refine (leads_addEquations hf hes).bind fun w₁ g hw₁ hg => (leads_simplify hg).bind fun w₂ h hw₂ hh => .pure ?_
  rintro k hk
  split at hk
  · cases hk
  · cases hk
    exact hh

end Formula

/-! ### Choices -/

namespace Choices
variable {w w' : World} {c : Choices} {f : Formula}

/-- What is known of the alternatives that are still to come. -/
structure IsIdempotent (w : World) (c : Choices) : Prop where
  base : ∀ f, c.base = some f → f.IsIdempotent w
  wheels : ∀ wheel ∈ c.wheels, w.Has wheel.target ∧ ∀ t ∈ wheel.candidates, w.Has t

theorem IsIdempotent.mono (hw : w ≤ w') (h : c.IsIdempotent w) : c.IsIdempotent w' :=
  ⟨fun f hf => (h.base f hf).mono hw, fun wheel hwheel => ⟨(h.wheels wheel hwheel).1.mono hw,
    fun t ht => ((h.wheels wheel hwheel).2 t ht).mono hw⟩⟩

/-- A candidate for what the choice is about, whatever it shows. -/
theorem equation_of_mem {wheel : Choice} (h : w.Has wheel.target ∧ ∀ t ∈ wheel.candidates, w.Has t) :
    w.Has wheel.equation.1 ∧ w.Has wheel.equation.2 :=
  ⟨h.1, h.2 _ (List.getElem_mem _)⟩

/-- Turning changes what choices show, and nothing else. -/
theorem forall_turn? {P : Term → List Term → Prop} :
    ∀ {cs ds : List Choice}, (∀ c ∈ cs, P c.target c.candidates) → Choice.turn? cs = some ds →
      ∀ d ∈ ds, P d.target d.candidates
  | [], _, _, h => by cases h
  | c :: cs, ds, hcs, h => by
    obtain ⟨hc, hcs⟩ := List.forall_mem_cons.mp hcs
    cases hturn : Choice.turn? cs with
    | some es =>
      rw [Choice.turn?_of_some hturn] at h
      cases h
      exact List.forall_mem_cons.mpr ⟨hc, forall_turn? hcs hturn⟩
    | none =>
      rw [Choice.turn?_of_none hturn] at h
      obtain ⟨c', hc', rfl⟩ := Option.map_eq_some_iff.mp h
      obtain ⟨_, hc'⟩ := Option.dite_none_right_eq_some.mp hc'
      cases hc'
      refine List.forall_mem_cons.mpr ⟨hc, fun d hd => ?_⟩
      obtain ⟨e, he, rfl⟩ := List.mem_map.mp hd
      exact hcs e he

theorem IsIdempotent.advance (h : c.IsIdempotent w) : c.advance.IsIdempotent w := by
  unfold Choices.advance
  split
  · rename_i wheels hturn
    exact ⟨h.base, forall_turn? (P := fun t ts => w.Has t ∧ ∀ u ∈ ts, w.Has u) h.wheels hturn⟩
  · refine ⟨fun f hf => (by cases hf), fun d hd => ?_⟩
    obtain ⟨e, he, rfl⟩ := List.mem_map.mp hd
    exact h.wheels e he

/-- The choice that a lookup leaves is about its terms and their parts. -/
theorem has_of_choice? {d : Lookup} {wheel : Choice} (hd : ∀ t ∈ d.terms, w.Has t) (h : d.choice? = some wheel) :
    w.Has wheel.target ∧ ∀ t ∈ wheel.candidates, w.Has t := by
  have hamong {target : Term} {candidates : List Term} (ht : w.Has target) (hcs : ∀ t ∈ candidates, w.Has t)
      (h : Choice.among? target candidates = some wheel) :
      w.Has wheel.target ∧ ∀ t ∈ wheel.candidates, w.Has t := by
    obtain ⟨_, h⟩ := Option.dite_none_right_eq_some.mp h
    cases h
    exact ⟨ht, hcs⟩
  unfold Lookup.choice? at h
  split at h
  · rename_i m key
    simp only [Lookup.terms, List.forall_mem_cons] at hd
    split at h
    · rename_i entries base hn
      refine hamong hd.2.1 (fun t ht => hd.1.child ?_) h
      obtain ⟨e, he, rfl⟩ := List.mem_map.mp ht
      rw [Term.children, hn]
      exact List.mem_append_left _ (List.mem_flatMap.mpr ⟨e, he, List.mem_cons_self⟩)
    · cases h
  · rename_i s element
    simp only [Lookup.terms, List.forall_mem_cons] at hd
    split at h
    · rename_i elements base hn
      refine hamong hd.2.1 (fun t ht => hd.1.child ?_) h
      rw [Term.children, hn]
      exact List.mem_append_left _ ht
    · cases h
  · cases h

theorem isIdempotent_ofFormula (hf : f.IsIdempotent w) : (ofFormula f).IsIdempotent w := by
  unfold ofFormula
  split
  · exact ⟨fun g hg => (by cases hg), List.forall_mem_nil _⟩
  · refine ⟨fun g hg => ?_, fun wheel hwheel => ?_⟩
    · cases hg
      exact ⟨hf.substitution, hf.equations, fun d hd => hf.lookups d (List.mem_of_mem_filter hd)⟩
    · obtain ⟨d, hd, hchoice⟩ := List.mem_filterMap.mp hwheel
      exact has_of_choice? (hf.lookups d hd) hchoice

/-- Alternatives are taken by counting on. -/
theorem returns_next {P : Choices → Prop} (hP : ∀ c, P c → P c.advance) {c : Choices} (hc : P c) :
    Returns (fun o => ∀ g rest, o = some (g, rest) → P rest.val) c.next := by
  cases hbase : c.base with
  | none =>
    rw [next_of_none hbase]
    exact .pure fun _ _ h => by cases h
  | some f =>
    rw [next_of_some hbase]
    refine .bind' fun o => ?_
    cases o with
    | some g =>
      refine .pure fun h rest heq => ?_
      cases heq
      exact hP c hc
    | none =>
      refine (returns_next hP (hP c hc)).bind fun o ho => .pure fun h rest heq => ?_
      obtain ⟨e, rfl, heq⟩ := Option.map_eq_some_iff.mp heq
      cases heq
      exact ho e.1 e.2 rfl
termination_by c.ahead.length
decreasing_by exact (c.later hbase).property

/-- The next alternative. -/
theorem leads_next {w : World} {c : Choices} (hc : c.IsIdempotent w) :
    Leads w (fun w o => ∀ g rest, o = some (g, rest) → g.IsIdempotent w) c.next := by
  cases hbase : c.base with
  | none =>
    rw [next_of_none hbase]
    exact .pure fun _ _ h => by cases h
  | some f =>
    rw [next_of_some hbase]
    have hequations : w.Equates (c.wheels.map Choice.equation) := fun e he => by
      obtain ⟨wheel, hwheel, rfl⟩ := List.mem_map.mp he
      exact equation_of_mem (hc.wheels wheel hwheel)
    refine (Formula.leads_conjoin? (hc.base f hbase) hequations).bind fun w₁ o hw₁ ho => ?_
    cases o with
    | some g =>
      refine .pure fun h rest heq => ?_
      cases heq
      exact ho g rfl
    | none =>
      refine (leads_next (hc.mono hw₁).advance).bind fun w₂ o _ ho => .pure fun h rest heq => ?_
      obtain ⟨e, rfl, heq⟩ := Option.map_eq_some_iff.mp heq
      cases heq
      exact ho e.1 e.2 rfl
termination_by c.ahead.length
decreasing_by exact (c.later hbase).property

end Choices

/-! ### Whole runs -/

namespace Formula

/-- The alternatives of a formula that are to come when some were taken. -/
inductive Remaining (f : Formula) : Choices → Prop where
  | start : Remaining f (Choices.ofFormula f)
  | next {n k : Nat} {c : Choices} {g : Formula} {rest : c.Later} (hc : Remaining f c)
      (h : c.next n = (.ok (some (g, rest)), k)) : Remaining f rest.val

theorem Remaining.isIdempotent {w : World} {f : Formula} {c : Choices} (hc : Remaining f c) (hf : f.IsIdempotent w) :
    c.IsIdempotent w := by
  induction hc with
  | start => exact Choices.isIdempotent_ofFormula hf
  | next _ h ih =>
    exact Choices.returns_next (P := fun c => c.IsIdempotent w) (fun _ hc => hc.advance) ih _ ⟨_, _, h⟩ _ _ rfl

/-- The formula comes about by the time that the next node has the number `n`. What is added is told apart by
numbers from what the formula is about. -/
inductive Obtained : Nat → Formula → Prop where
  | truth (n : Nat) (functions : List String) : Obtained n (truth functions)
  /-- Nodes are made elsewhere. -/
  | later {n k : Nat} {f : Formula} (hf : Obtained n f) (hk : n ≤ k) : Obtained k f
  | add {n k : Nat} {f g : Formula} {l r : Term} (hf : Obtained n f) (hn : Term.AreHeap n (l :: r :: f.terms))
      (h : f.add l r n = (.ok g, k)) : Obtained k g
  | addLookup {n k : Nat} {f g : Formula} {d : Lookup} (hf : Obtained n f)
      (hn : Term.AreHeap n (d.terms ++ f.terms)) (h : f.addLookup d n = (.ok g, k)) : Obtained k g
  | addSubstitution {n k : Nat} {f g : Formula} {σ : Substitution} (hf : Obtained n f)
      (hn : Term.AreHeap n (σ.terms ++ f.terms)) (h : f.addSubstitution σ n = (.ok g, k)) : Obtained k g
  | addAll {n k : Nat} {f g h : Formula} (hf : Obtained n f) (hn : Term.AreHeap n (g.terms ++ f.terms))
      (hrun : f.addAll g n = (.ok h, k)) : Obtained k h
  | simplify {n k : Nat} {f g : Formula} (hf : Obtained n f) (h : f.simplify n = (.ok g, k)) : Obtained k g
  | choice {n k : Nat} {f g : Formula} {c : Choices} {rest : c.Later} (hf : Obtained n f) (hc : Remaining f c)
      (h : c.next n = (.ok (some (g, rest)), k)) : Obtained k g

/-- Which world the terms are of does not matter. -/
theorem IsIdempotent.of_has {w w' : World} {f : Formula} (hf : f.IsIdempotent w) (h : ∀ t ∈ f.terms, w'.Has t) :
    f.IsIdempotent w' := by
  obtain ⟨hσ, hes, hds⟩ := forall_mem_terms.mp h
  refine ⟨⟨fun b hb => ⟨hσ b.2 (List.mem_map_of_mem hb), (hf.substitution.free b hb).vars⟩, hf.substitution.named,
    hf.substitution.grown⟩, hes, hds⟩

/-- Whatever is obtained, its bindings are known in some world. -/
theorem Obtained.exists_world {n : Nat} {f : Formula} (hf : Obtained n f) :
    ∃ w : World, w.next = n ∧ f.IsIdempotent w := by
  -- Where terms are added the nodes are told apart by their numbers, so there is a world that has all of them.
  have hadded {n : Nat} {f : Formula} (ts : List Term) (hf : ∃ w : World, w.next = n ∧ f.IsIdempotent w)
      (hn : Term.AreHeap n (ts ++ f.terms)) :
      ∃ w : World, w.next = n ∧ f.IsIdempotent w ∧ ∀ t ∈ ts, w.Has t := by
    obtain ⟨w, -, hf⟩ := hf
    have hhas := World.has_ofHeap hn
    exact ⟨_, rfl, hf.of_has fun t ht => hhas t (List.mem_append_right _ ht),
      fun t ht => hhas t (List.mem_append_left _ ht)⟩
  have hrun {n k : Nat} {g : Formula} {w : World} {x : Build Formula} (hw : w.next = n) (h : x n = (.ok g, k))
      (hx : Leads w (fun w g => g.IsIdempotent w) x) : ∃ w : World, w.next = k ∧ g.IsIdempotent w := by
    subst hw
    obtain ⟨w', -, hk, hg⟩ := hx.of_run h
    exact ⟨w', hk, hg⟩
  induction hf with
  | truth n functions => exact ⟨{ next := n, meaning := fun _ => default }, rfl, .truth _ functions⟩
  | @later n k f _ hk ih =>
    obtain ⟨w, rfl, hf⟩ := ih
    have hlater : w ≤ { w with next := k } := ⟨hk, fun _ _ => rfl, id⟩
    exact ⟨_, rfl, hf.mono hlater⟩
  | @add n k f g l r _ hn h ih =>
    obtain ⟨w, hw, hf, hts⟩ := hadded [l, r] ih hn
    exact hrun hw h (leads_add hf (hts l (by simp)) (hts r (by simp)))
  | addLookup _ hn h ih =>
    obtain ⟨w, hw, hf, hts⟩ := hadded _ ih hn
    exact hrun hw h (leads_addLookup hf hts)
  | addSubstitution _ hn h ih =>
    obtain ⟨w, hw, hf, hts⟩ := hadded _ ih hn
    exact hrun hw h (leads_addSubstitution hf hts)
  | addAll _ hn h ih =>
    obtain ⟨w, hw, hf, hts⟩ := hadded _ ih hn
    exact hrun hw h (leads_addAll hf hts)
  | simplify _ h ih =>
    obtain ⟨w, hw, hf⟩ := ih
    exact hrun hw h (leads_simplify hf)
  | @choice n k f g c rest _ hc h ih =>
    obtain ⟨w, rfl, hf⟩ := ih
    obtain ⟨w', -, hk, hg⟩ := (Choices.leads_next (hc.isIdempotent hf)).of_run h
    exact ⟨w', hk, hg g rest rfl⟩

/-- Whatever formula is obtained, no bound variable occurs in a bound term and none is to be ignored, every
variable was bound to a term of its sort, and reading a term through the bindings twice is reading it through
them once. -/
theorem Obtained.isReadOnce {n : Nat} {f : Formula} (hf : Obtained n f) :
    (∀ b ∈ f.substitution.bindings, b.1.isDontCare = false ∧ ∀ x ∈ b.2.vars, f.substitution.contains x = false) ∧
      f.substitution.Grown ∧
      ∀ (t : Term) (k : Nat), Term.AreHeap k (t :: f.substitution.terms) →
        ((do f.apply (← f.apply t)) k).1 = (f.apply t k).1 := by
  obtain ⟨w, -, hw⟩ := hf.exists_world
  refine ⟨fun b hb => ⟨hw.substitution.named b hb, (hw.substitution.free b hb).vars⟩, hw.substitution.grown,
    fun t k hk => ?_⟩
  have hhas := World.has_ofHeap hk
  have hσ : f.substitution.IsIdempotent (World.ofNodes k ((t :: f.substitution.terms).flatMap Term.nodes)) :=
    ⟨fun b hb => ⟨hhas b.2 (List.mem_cons_of_mem t (List.mem_map_of_mem hb)), (hw.substitution.free b hb).vars⟩,
      hw.substitution.named, hw.substitution.grown⟩
  obtain ⟨w', -, -, hu⟩ := Substitution.leads_apply hσ (hhas t List.mem_cons_self)
  show ((f.apply t >>= f.apply) k).1 = _
  rw [Build.bind_run]
  rcases hrun : f.apply t k with ⟨c | u, m⟩
  · rfl
  · exact Substitution.apply_of_free (hu u (congrArg Prod.fst hrun)).vars m

/-- An equation about a variable that the next one binds, and a term that mentions both. -/
def chained : Build (Term × List Equation) := do
  let x ← Term.var { name := "X", sort := .k }
  let y ← Term.var { name := "Y", sort := .k }
  return (← Term.app (.const "g") [x, y] .k, [(x, ← Term.app (.const "f") [y] .k), (y, .constant "a")])

/-- Whether both equations can be added, and bind two variables. -/
def bindsBoth : Bool :=
  match chained 1 with
  | (.ok (t, [(l, r), (l', r')]), n) => decide (Term.AreHeap n [l, r]) &&
    match truth.add l r n with
    | (.ok f, n') => decide (Term.AreHeap n' (l' :: r' :: f.terms)) &&
      match f.add l' r' n' with
      | (.ok g, k) => g.substitution.size == 2 && decide (Term.AreHeap k (t :: g.substitution.terms))
      | _ => false
    | _ => false
  | _ => false

set_option maxRecDepth 100000 in
theorem Obtained.isReadOnce_chained : ∃ (n : Nat) (f : Formula) (t : Term), Obtained n f ∧
    f.substitution.size = 2 ∧ f.substitution.Grown ∧
    ((do f.apply (← f.apply t)) n).1 = (f.apply t n).1 := by
  have h : bindsBoth = true := by decide
  unfold bindsBoth at h
  split at h
  · rename_i t l r l' r' n _
    obtain ⟨hn, h⟩ := (Bool.and_eq_true _ _).mp h
    split at h
    · rename_i f n' hf
      obtain ⟨hn', h⟩ := (Bool.and_eq_true _ _).mp h
      split at h
      · rename_i g k hg
        obtain ⟨hsize, hk⟩ := (Bool.and_eq_true _ _).mp h
        have hf : Obtained n' f := .add (.truth n []) (of_decide_eq_true hn) hf
        have hg : Obtained k g := .add hf (of_decide_eq_true hn') hg
        obtain ⟨-, hgrown, honce⟩ := hg.isReadOnce
        exact ⟨k, g, t, hg, beq_iff_eq.mp hsize, hgrown, honce t k (of_decide_eq_true hk)⟩
      · cases h
    · cases h
  · cases h

end Formula

end RuleCompiler
