import RuleCompiler.Proofs.Expansion.Rules
import RuleCompiler.Proofs.Firing
import RuleCompiler.Proofs.Renaming.Terms

/-! # Rules renamed

A rule is renamed in its body, conditions and lookups alike, and put together again from these. What it makes
of a subject with variables may depend on the names all the same. -/

namespace RuleCompiler

open Build (From Gives)
open Term (Renamed)

namespace Rule

variable {r r' r'' : Rule} {ρ σ : Var → Var} {n : Nat}

/-- Whether the terms of the rule can be renamed. -/
def isRenamable (r : Rule) : Bool := r.terms.all Term.isRenamable

/-- The rule `r'` is `r` with each variable `v` named `ρ v`, in body, conditions and lookups, and what is derived
from these is derived from them as they are now. -/
structure Renames (ρ : Var → Var) (r r' : Rule) : Prop where
  kind : r'.kind = r.kind
  attributes : r'.attributes = r.attributes
  body : r.body.Renames ρ r'.body
  requires : List.Forall₂ (Term.Renames ρ) r.requires r'.requires
  ensures : List.Forall₂ (Term.Renames ρ) r.ensures r'.ensures
  equations : List.Forall₂ (fun e e' => e.1.Renames ρ e'.1 ∧ e.2.Renames ρ e'.2) r.equations r'.equations
  assembled : ∃ n m, assemble r'.kind r'.attributes r'.body r'.requires r'.ensures r'.equations n = (.ok r', m)

theorem Renames.terms (h : r.Renames ρ r') : List.Forall₂ (Term.Renames ρ) r.terms r'.terms :=
  .cons h.body (List.rel_append h.requires (List.rel_append h.ensures
    (List.rel_flatMap h.equations fun _ _ h => .cons h.1 (.cons h.2 .nil))))

theorem mem_vars_iff {v : Var} : v ∈ r.vars ↔ ∃ t ∈ r.terms, v ∈ t.vars := List.mem_flatMap

theorem vars_subset {t : Term} (ht : t ∈ r.terms) : t.vars ⊆ r.vars := fun _ hv => mem_vars_iff.mpr ⟨t, ht, hv⟩

/-- The renamed rule has the renamed variables. -/
theorem Renames.mem_vars_iff (h : r.Renames ρ r') {w : Var} : w ∈ r'.vars ↔ ∃ v ∈ r.vars, ρ v = w := by
  constructor
  · intro hw
    obtain ⟨u, hu, hw⟩ := Rule.mem_vars_iff.mp hw
    obtain ⟨t, ht, htu⟩ := PairedLists.exists_mem h.terms.flip hu
    obtain ⟨v, hv, hvw⟩ := htu.mem_vars_iff.mp hw
    exact ⟨v, vars_subset ht hv, hvw⟩
  · rintro ⟨v, hv, hvw⟩
    obtain ⟨t, ht, hv⟩ := Rule.mem_vars_iff.mp hv
    obtain ⟨u, hu, htu⟩ := PairedLists.exists_mem h.terms ht
    exact vars_subset hu (htu.mem_vars_iff.mpr ⟨v, hv, hvw⟩)

theorem Renames.comp (h : r.Renames ρ r') (h' : r'.Renames σ r'') : r.Renames (σ ∘ ρ) r'' where
  kind := h'.kind.trans h.kind
  attributes := h'.attributes.trans h.attributes
  body := h.body.comp h'.body
  requires := PairedLists.comp (fun _ _ _ h h' => h.comp h') h.requires h'.requires
  ensures := PairedLists.comp (fun _ _ _ h h' => h.comp h') h.ensures h'.ensures
  equations := PairedLists.comp (fun _ _ _ h h' => ⟨h.1.comp h'.1, h.2.comp h'.2⟩) h.equations h'.equations
  assembled := h'.assembled

/-! ### Renaming -/

theorem returns_assemble {kind : RuleKind} {attributes : Attributes} {body : Term} {requires ensures : List Term}
    {equations : List (Term × Term)} (hfrozen : ∀ t ∈ body :: (requires ++ ensures), t.touchesEditable = false) :
    Returns (fun r => r.kind = kind ∧ r.attributes = attributes ∧ r.body = body ∧ r.requires = requires ∧
        r.ensures = ensures ∧ r.equations = equations)
      (assemble kind attributes body requires ensures equations) := by
  rw [assemble_eq hfrozen]
  exact .bind' fun _ => .bind' fun _ => .bind' fun _ => .bind' fun _ => .pure ⟨rfl, rfl, rfl, rfl, rfl, rfl⟩

/-- New names that tell the variables of a rule apart make the renamed rule of it. -/
theorem from_rename {names : List (Var × Var)} (hr : r.isRenamable) (hnumbered : r.IsNumbered n)
    (hsorts : ∀ v, (Var.renamed (fun v => SortedList.get? v names) v).sort = v.sort)
    (hρ : Set.InjOn (Var.renamed fun v => SortedList.get? v names) {v | v ∈ r.vars}) :
    From n (fun _ r' => r.Renames (Var.renamed fun v => SortedList.get? v names) r' ∧
      List.Forall₂ (Renamed (Var.renamed fun v => SortedList.get? v names)) r.terms r'.terms) (r.rename names) := by
  generalize hρ' : (Var.renamed fun v => SortedList.get? v names) = ρ at hsorts hρ
  have hterm {t : Term} (ht : t ∈ r.terms) (k : Nat) (hk : n ≤ k) :
      Gives k (fun _ u => Renamed ρ t u) (t.rename fun v => SortedList.get? v names) := by
    subst hρ'
    exact Term.gives_rename_renamable hsorts (List.all_eq_true.mp hr t ht) (hnumbered.terms t ht)
      (hρ.mono (vars_subset ht)) hk
  have hall (ts : List Term) (hts : ∀ t ∈ ts, t ∈ r.terms) (k : Nat) (hk : n ≤ k) :
      Gives k (fun _ us => List.Forall₂ (Renamed ρ) ts us)
        (ts.mapM (Term.rename fun v => SortedList.get? v names)) := by
    refine (Gives.mapM (S := Eq) (R := fun _ u t => Renamed ρ t u) (fun _ h => h)
      (List.forall₂_same.mpr fun _ _ => rfl) ?_).mono fun _ _ _ h => h.flip
    rintro t ht _ rfl m hm
    exact hterm (hts t ht) m (Nat.le_trans hk hm)
  have hpairs (k : Nat) (hk : n ≤ k) :
      Gives k (fun _ es => List.Forall₂ (fun e e' => Renamed ρ e.1 e'.1 ∧ Renamed ρ e.2 e'.2) r.equations es)
        (r.equations.mapM fun e => return (← e.1.rename fun v => SortedList.get? v names,
          ← e.2.rename fun v => SortedList.get? v names)) := by
    refine (Gives.mapM (S := Eq) (R := fun _ (e' : Term × Term) (e : Term × Term) => Renamed ρ e.1 e'.1 ∧
      Renamed ρ e.2 e'.2) (fun _ h => h) (List.forall₂_same.mpr fun _ _ => rfl) ?_).mono fun _ _ _ h => h.flip
    rintro e he _ rfl m hm
    have hside {t : Term} (ht : t ∈ [e.1, e.2]) : t ∈ r.terms := by
      refine List.mem_cons_of_mem _ (List.mem_append_right _ (List.mem_append_right _ ?_))
      exact List.mem_flatMap.mpr ⟨e, he, ht⟩
    refine (hterm (hside (by simp)) m (Nat.le_trans hk hm)).bind fun k₁ a hk₁ ha => ?_
    exact (hterm (hside (by simp)) k₁ (by omega)).bind fun k₂ b _ hb => .pure ⟨ha, hb⟩
  intro r' k hrun
  obtain ⟨hk, -⟩ := from_rename_numbered names hnumbered r' k hrun
  refine ⟨hk, ?_⟩
  obtain ⟨body, k₁, hrun₁, hrun⟩ := Build.exists_of_bind hrun
  obtain ⟨hk₁, hbody⟩ := (hterm List.mem_cons_self n (Nat.le_refl n)).from body k₁ hrun₁
  obtain ⟨requires, k₂, hrun₂, hrun⟩ := Build.exists_of_bind hrun
  obtain ⟨hk₂, hrequires⟩ := (hall r.requires (fun t ht => by simp [terms, ht]) k₁ hk₁).from requires k₂ hrun₂
  obtain ⟨ensures, k₃, hrun₃, hrun⟩ := Build.exists_of_bind hrun
  obtain ⟨hk₃, hensures⟩ := (hall r.ensures (fun t ht => by simp [terms, ht]) k₂ (by omega)).from ensures k₃ hrun₃
  obtain ⟨equations, k₄, hrun₄, hrun⟩ := Build.exists_of_bind hrun
  obtain ⟨hk₄, hequations⟩ := (hpairs k₃ (by omega)).from equations k₄ hrun₄
  have hfrozen : ∀ t ∈ body :: (requires ++ ensures), t.touchesEditable = false := by
    simp only [List.forall_mem_cons, List.forall_mem_append]
    refine ⟨hbody.untouched, fun u hu => ?_, fun u hu => ?_⟩
    · obtain ⟨t, -, htu⟩ := PairedLists.exists_mem hrequires.flip hu
      exact htu.untouched
    · obtain ⟨t, -, htu⟩ := PairedLists.exists_mem hensures.flip hu
      exact htu.untouched
  have hparts := (returns_assemble hfrozen).of_eq hrun
  obtain ⟨hkind, hattributes, rfl, rfl, rfl, rfl⟩ := hparts
  have hrenames {ts us : List Term} (h : List.Forall₂ (Renamed ρ) ts us) : List.Forall₂ (Term.Renames ρ) ts us :=
    h.imp fun _ _ h => h.renames
  refine ⟨⟨hkind, hattributes, hbody.renames, hrenames hrequires, hrenames hensures,
    hequations.imp fun _ _ h => ⟨h.1.renames, h.2.renames⟩, k₄, k, by rw [hkind, hattributes]; exact hrun⟩, ?_⟩
  exact .cons hbody (List.rel_append hrequires (List.rel_append hensures
    (List.rel_flatMap hequations fun _ _ h => .cons h.1 (.cons h.2 .nil))))

end Rule

namespace Definition

/-! ### Variables of the subject -/

/-- A rule that names what it is given. -/
def namedArgument : SourceDefinition where
  main := "M"
  modules := [{ name := "M", sentences := [
    .rule {
      body := .rewrite (.apply "p" [x] {}) (.apply "q" [y] {}) {}
      requires? := some (.apply "#match" [y, x] {}) }] }]
where
  x : SourceTerm := .varOfSort "X" .kItem
  y : SourceTerm := .varOfSort "Y" .kItem
  subject : SourceTerm := .apply "p" [.apply "s" [x] {}] {}

/-- The variables of the rule with another id each. -/
def otherNames : List (Var × Var) :=
  ["X", "Y"].map fun x => ({ name := x, sort := .kItem }, { name := x, sort := .kItem, id := 1 })

set_option maxRecDepth 100000

/-- A variable of the subject is taken for that of the rule: the result is not what it is with the
variables of the rule renamed. -/
theorem exists_captured : ∃ (d : Definition) (r r' : Rule) (subject : Term) (f f' : Firing),
    compiled? {} namedArgument = some d ∧ d.rules = [r] ∧
      (∀ v ∈ r.vars, ∃ e ∈ otherNames, e.1 = v) ∧ (r.rename otherNames).result? 200 = some r' ∧
      d.loweredFrom? 300 namedArgument.subject = some subject ∧
      (∀ e ∈ otherNames, e.2.sort = e.1.sort ∧ e.2 ∉ subject.vars) ∧
      (d.fireRule 0 subject).result? 400 = some [f] ∧
      ({ d with rules := [r'] }.fireRule 0 subject).result? 400 = some [f'] ∧
      ¬ f.result == f'.result := by
  have h : ((compiled? {} namedArgument).any fun d => (single? d.rules).any fun r =>
      (r.vars.all fun v => otherNames.any (·.1 == v)) &&
        ((r.rename otherNames).result? 200).any fun r' =>
        (d.loweredFrom? 300 namedArgument.subject).any fun s =>
          (otherNames.all fun e => e.2.sort == e.1.sort && !s.vars.contains e.2) &&
          (((d.fireRule 0 s).result? 400).bind single?).any fun f =>
          ((({ d with rules := [r'] }.fireRule 0 s).result? 400).bind single?).any fun (f' : Firing) =>
            !(f.result == f'.result)) = true := by
    decide +kernel
  obtain ⟨d, hd, h⟩ := (Option.any_eq_true ..).mp h
  obtain ⟨r, hr, h⟩ := (Option.any_eq_true ..).mp h
  simp only [Bool.and_eq_true, List.all_eq_true, List.any_eq_true, beq_iff_eq] at h
  obtain ⟨hvars, h⟩ := h
  obtain ⟨r', hr', h⟩ := (Option.any_eq_true ..).mp h
  obtain ⟨s, hs, h⟩ := (Option.any_eq_true ..).mp h
  simp only [Bool.and_eq_true, List.all_eq_true, beq_iff_eq, Bool.not_eq_true',
    List.contains_eq_mem, decide_eq_false_iff_not] at h
  obtain ⟨hnames, h⟩ := h
  obtain ⟨f, hf, h⟩ := (Option.any_eq_true ..).mp h
  obtain ⟨f', hf', h⟩ := (Option.any_eq_true ..).mp h
  exact ⟨d, r, r', s, f, f', hd, eq_of_single? hr, hvars, hr', hs, hnames, eq_of_bind_single? hf,
    eq_of_bind_single? hf', by simpa using h⟩

end Definition

end RuleCompiler
