import Mathlib.Data.List.ReduceOption
import RuleCompiler.Proofs.Formula.Choices
import RuleCompiler.Proofs.Formula.Conjunction
import RuleCompiler.Proofs.Formula.Lookups
import RuleCompiler.Proofs.World

/-! # Formulas that are reached

What a session makes of the formula that states nothing: equations and lookups are added, other formulas
are conjoined, and in between everything pending is added again. -/

namespace RuleCompiler

namespace Formula

/-- The formula is reached when the next node has the number `n`. What is added is told apart by numbers from
what the formula is about. -/
inductive Reached : Nat → Formula → Prop where
  | truth (n : Nat) (functions : List String) : Reached n (truth functions)
  /-- Nodes are made elsewhere. -/
  | later {n k : Nat} {f : Formula} (hf : Reached n f) (hk : n ≤ k) : Reached k f
  | add {n k : Nat} {f g : Formula} {l r : Term} (hf : Reached n f) (hn : Term.AreHeap n (l :: r :: f.terms))
      (h : f.add l r n = (.ok g, k)) : Reached k g
  | addLookup {n k : Nat} {f g : Formula} {d : Lookup} (hf : Reached n f)
      (hn : Term.AreHeap n (d.terms ++ f.terms)) (h : f.addLookup d n = (.ok g, k)) : Reached k g
  | addAll {n k : Nat} {f g h : Formula} (hf : Reached n f) (hg : Reached n g)
      (hn : Term.AreHeap n (g.terms ++ f.terms)) (hrun : f.addAll g n = (.ok h, k)) : Reached k h
  | simplify {n k : Nat} {f g : Formula} (hf : Reached n f) (hn : Term.AreHeap n f.terms)
      (h : f.simplify n = (.ok g, k)) : Reached k g

/-! ### Simplification that ends with a clash -/

/-- Cells that are one cell and an unknown rest, of two labels, and a constant of the sort of cells. -/
def strayRest : Build (List Equation) := do
  let first : Var := { name := "F", sort := .bag }
  let second : Var := { name := "G", sort := .bag }
  let rest (label : String) (v : Var) : Build Term := do
    CellParts.build { cells := [⟨label, .one, .constant label⟩], frames := [v] }
  return [(← rest "a" first, ← rest "b" second), (← Term.var first, .constant "c" .bag)]

/-- Whether both equations can be added, all nodes being told apart by their numbers, but then nothing
comes of simplifying. -/
def clashesInTheEnd : Bool :=
  match strayRest 1 with
  | (.ok [(l, r), (l', r')], n) => decide (Term.AreHeap n [l, r]) &&
    match truth.add l r n with
    | (.ok f, n') => decide (Term.AreHeap n' (l' :: r' :: f.terms)) &&
      match f.add l' r' n' with
      | (.ok g, k) => match g.simplify k with
        | (.error _, _) => true
        | _ => false
      | _ => false
    | _ => false
  | _ => false

set_option maxRecDepth 100000

/-- The unknown rest of cells may be bound to a term that is no cells. An equation that was kept for later is
about that rest, and its cells cannot be put together any more. -/
theorem exists_simplify_clashes : ∃ (n k : Nat) (f : Formula) (c : Clash),
    Reached n f ∧ f.simplify n = (.error c, k) := by
  have h : clashesInTheEnd = true := by decide
  unfold clashesInTheEnd at h
  split at h
  · rename_i l r l' r' n _
    obtain ⟨hn, h⟩ := (Bool.and_eq_true _ _).mp h
    split at h
    · rename_i f n' hf
      obtain ⟨hn', h⟩ := (Bool.and_eq_true _ _).mp h
      split at h
      · rename_i g k hg
        have hf : Reached n' f := .add (.truth n []) (of_decide_eq_true hn) hf
        have hg : Reached k g := .add hf (of_decide_eq_true hn') hg
        split at h
        · rename_i c k' hc
          exact ⟨k, k', g, c, hg, hc⟩
        · cases h
      · cases h
    · cases h
  · cases h

end Formula

/-! ## The alternatives of a formula

Going through the choices of a formula gives what every tuple of positions comes to, unless it is false. Between
first-order terms that says as much as the formula, where all is known of the collections to choose from. -/

open Build (Gives Makes)
open MonadAttach (CanReturn)

/-! ### What choices say -/

namespace Choice

/-- What is chosen and all candidates are plain. -/
structure IsPlain (sorts : String → SortName) (w : World) (c : Choice) : Prop where
  target : c.target.Plain sorts w
  candidates : ∀ t ∈ c.candidates, t.Plain sorts w

/-- What is chosen is one of the candidates. -/
def Holds (θ : Var → Expr) (c : Choice) : Prop := ∃ t ∈ c.candidates, c.target.expr.subst θ = t.expr.subst θ

end Choice

namespace Lookup

/-- The parts of the collection to choose from that are not known yet. -/
def unknownParts : Lookup → List Term
  | mapChoice m _ => match m.node with
    | .map _ _ base => base
    | _ => [m]
  | setChoice s _ => match s.node with
    | .set _ _ base => base
    | _ => [s]
  | _ => []

/-- What is chosen is one of the keys or elements, of which `rest` says what the unknown parts have. -/
def IsChosen (θ : Var → Expr) (rest : Term → List Expr) (d : Lookup) : Prop :=
  match d with
  | mapChoice m k => k.expr.subst θ ∈ m.mapKeys.map (·.expr.subst θ) ++ d.unknownParts.flatMap rest
  | setChoice s e => e.expr.subst θ ∈ s.setElements.map (·.expr.subst θ) ++ d.unknownParts.flatMap rest
  | _ => True

theorem among_iff {θ : Var → Expr} {target : Term} {candidates : List Term} {c : Choice}
    (h : Choice.among? target candidates = some c) :
    target.expr.subst θ ∈ candidates.map (·.expr.subst θ) ↔ c.Holds θ := by
  obtain ⟨_, h⟩ := Option.dite_none_right_eq_some.mp h
  cases h
  rw [List.mem_map]
  exact exists_congr fun t => and_congr_right fun _ => eq_comm

/-- Without unknown parts the candidates are all that can be chosen. -/
theorem isChosen_iff {θ : Var → Expr} {rest : Term → List Expr} {d : Lookup} {c : Choice} (h : d.choice? = some c)
    (hknown : d.unknownParts = []) : d.IsChosen θ rest ↔ c.Holds θ := by
  unfold choice? at h
  split at h
  · split at h
    · rename_i m k _ es base hn
      rw [IsChosen, hknown, List.flatMap_nil, List.append_nil, Term.mapKeys, Term.mapEntries, hn]
      exact among_iff h
    · cases h
  · split at h
    · rename_i s e _ ts base hn
      rw [IsChosen, hknown, List.flatMap_nil, List.append_nil, Term.setElements, hn]
      exact among_iff h
    · cases h
  · cases h

end Lookup

namespace Formula
variable {f : Formula}

/-! ### First-order alternatives -/

section FirstOrder
variable {sorts : String → SortName} {w : World} {es : List Equation} {cs : List Choice} {θ : Var → Expr}

theorem addEquations_eq (f : Formula) (es : List Equation) :
    f.addEquations es = (es.map fun e => Step.add e.1 e.2).foldlM Step.run f := by
  rw [List.foldlM_map]
  rfl

/-- What is made of a decided formula and plain equations says what they say, unless it is left out. -/
theorem makes_conjoin? (hf : f.IsDecided sorts w) (hes : ArePlain sorts w es) :
    Makes w (f.conjoin? es) fun _ o => ∀ θ, Expr.IsSorted θ →
      ((∃ g, o = some g ∧ g.Holds θ) ↔ f.Holds θ ∧ HoldAll θ es) := by
  have hequations : (es.map fun e => Step.add e.1 e.2).flatMap Step.equations = es := by
    rw [List.flatMap_map]
    exact List.flatMap_singleton' es
  unfold conjoin?
  rw [addEquations_eq]
  refine Making.bind (makes_run hf (by rwa [hequations])) fun w' g _ hg => ?_
  rw [hequations] at hg
  rw [simplify_eq hg.decided, pure_bind]
  refine Making.pure fun θ hθ => ?_
  constructor
  · rintro ⟨g', h, hg'⟩
    split at h
    · cases h
    · cases h
      exact hg.holds θ hg'
  · rintro ⟨hfθ, hall⟩
    have hgθ := hg.complete θ hθ hfθ hall
    rw [hgθ.isFalse]
    exact ⟨g, rfl, hgθ⟩

theorem gives_conjoin? (hf : f.IsDecided sorts w) (hes : ArePlain sorts w es) {k : Nat} (hk : w.next ≤ k) :
    Gives k (fun _ o => ∀ θ, Expr.IsSorted θ → ((∃ g, o = some g ∧ g.Holds θ) ↔ f.Holds θ ∧ HoldAll θ es))
      (f.conjoin? es) := by
  have hw : w ≤ { w with next := k } := ⟨hk, fun _ _ => rfl, id⟩
  obtain ⟨o, w', hrun, hw', -, ho⟩ := makes_conjoin? (hf.mono hw) (hes.mono hw)
  exact ⟨o, w'.next, hrun, hw'.1, ho⟩

theorem arePlain_selection (hcs : ∀ c ∈ cs, c.IsPlain sorts w) (hes : es ∈ selections cs) : ArePlain sorts w es := by
  intro e he
  obtain ⟨c, hc, htarget, hcandidate⟩ := PairedLists.exists_mem (mem_selections.mp hes).flip he
  exact ⟨htarget ▸ (hcs c hc).target, (hcs c hc).candidates _ hcandidate⟩

theorem exists_selection : (∃ es ∈ selections cs, HoldAll θ es) ↔ ∀ c ∈ cs, c.Holds θ := by
  constructor
  · rintro ⟨es, hes, hall⟩ c hc
    obtain ⟨e, he, htarget, hcandidate⟩ := PairedLists.exists_mem (mem_selections.mp hes) hc
    exact ⟨e.2, hcandidate, htarget ▸ hall e he⟩
  · intro h
    induction cs with
    | nil => exact ⟨[], List.mem_singleton_self _, List.forall_mem_nil _⟩
    | cons c cs ih =>
      obtain ⟨⟨t, ht, heq⟩, hcs⟩ := List.forall_mem_cons.mp h
      obtain ⟨es, hes, hall⟩ := ih hcs
      exact ⟨(c.target, t) :: es, mem_selections.mpr (.cons ⟨rfl, ht⟩ (mem_selections.mp hes)),
        List.forall_mem_cons.mpr ⟨heq, hall⟩⟩

theorem gives_picked {is : List Nat} (hf : f.withoutOptions.IsDecided sorts w)
    (hplain : ∀ c ∈ f.options, c.IsPlain sorts w)
    (his : List.Forall₂ (fun i c => i < c.candidates.length) is f.options) {k : Nat} (hk : w.next ≤ k) :
    Gives k (fun _ _ => True) (f.withoutOptions.conjoin? (Choice.picked f.options is)) := by
  have hmem : Choice.picked f.options is ∈ selections f.options := by
    rw [selections_eq]
    exact List.mem_map_of_mem (Choice.mem_tuples.mpr his)
  exact (gives_conjoin? hf (arePlain_selection hplain hmem) hk).mono fun _ _ _ _ => trivial

theorem holds_withoutOptions : f.withoutOptions.Holds θ ↔ f.Holds θ :=
  ⟨fun h => ⟨h.isFalse, h.substitution, h.equations⟩, fun h => ⟨h.isFalse, h.substitution, h.equations⟩⟩

theorem forall_isChosen_iff {rest : Term → List Expr} (hlookups : f.withoutOptions.lookups = [])
    (hknown : ∀ d ∈ f.lookups, d.unknownParts = []) :
    (∀ d ∈ f.lookups, d.IsChosen θ rest) ↔ ∀ c ∈ f.options, c.Holds θ := by
  constructor
  · intro h c hc
    obtain ⟨d, hd, hchoice⟩ := List.mem_filterMap.mp hc
    exact (Lookup.isChosen_iff hchoice (hknown d hd)).mp (h d hd)
  · intro h d hd
    have hsome := List.filter_eq_nil_iff.mp hlookups d hd
    obtain ⟨c, hchoice⟩ := Option.ne_none_iff_exists'.mp (by simpa using hsome)
    exact (Lookup.isChosen_iff hchoice (hknown d hd)).mpr (h c (List.mem_filterMap.mpr ⟨d, hd, hchoice⟩))

/-! ### The solutions of the alternatives -/

/-- The alternatives have the solutions of the formula: those for which every choice is one of the keys or
elements, of which none is unknown. -/
theorem choices_iff (hf : f.withoutOptions.IsDecided sorts w) (hplain : ∀ c ∈ f.options, c.IsPlain sorts w)
    (hknown : ∀ d ∈ f.lookups, d.unknownParts = []) :
    ∃ gs k, f.choices w.next = (.ok gs, k) ∧ ∀ θ rest, Expr.IsSorted θ →
      ((∃ g ∈ gs, g.Holds θ) ↔ f.Holds θ ∧ ∀ d ∈ f.lookups, d.IsChosen θ rest) := by
  cases hfalse : f.isFalse with
  | true =>
    refine ⟨[], w.next, by rw [choices, eachChoice_of_isFalse hfalse]; rfl, fun θ rest _ => ?_⟩
    refine ⟨fun h => ?_, fun h => absurd h.1 (not_holds_of_isFalse hfalse)⟩
    obtain ⟨_, hmem, -⟩ := h
    cases hmem
  | false =>
    have hall : ∀ es ∈ selections f.options, ∀ k, w.next ≤ k → Gives k _ (f.withoutOptions.conjoin? es) :=
      fun es hes k hk => gives_conjoin? hf (arePlain_selection hplain hes) hk
    obtain ⟨gs, k, hrun, -, os, hos, rfl⟩ := Gives.filterMapM hall
    refine ⟨os.reduceOption, k, by rw [choices_eq hfalse, hrun], fun θ rest hθ => ?_⟩
    calc (∃ g ∈ os.reduceOption, g.Holds θ)
        ↔ ∃ es ∈ selections f.options, f.withoutOptions.Holds θ ∧ HoldAll θ es := by
          constructor
          · rintro ⟨g, hg, hgθ⟩
            obtain ⟨es, hes, h⟩ := PairedLists.exists_mem hos.flip (List.reduceOption_mem_iff.mp hg)
            exact ⟨es, hes, (h θ hθ).mp ⟨g, rfl, hgθ⟩⟩
          · rintro ⟨es, hes, hsolved⟩
            obtain ⟨o, ho, h⟩ := PairedLists.exists_mem hos hes
            obtain ⟨g, rfl, hgθ⟩ := (h θ hθ).mpr hsolved
            exact ⟨g, List.reduceOption_mem_iff.mpr ho, hgθ⟩
      _ ↔ f.Holds θ ∧ ∀ c ∈ f.options, c.Holds θ := by
          rw [holds_withoutOptions, ← exists_selection]
          constructor
          · rintro ⟨es, hes, hfθ, hall⟩
            exact ⟨hfθ, es, hes, hall⟩
          · rintro ⟨hfθ, es, hes, hall⟩
            exact ⟨es, hes, hfθ, hall⟩
      _ ↔ f.Holds θ ∧ ∀ d ∈ f.lookups, d.IsChosen θ rest :=
          and_congr_right fun _ => (forall_isChosen_iff hf.lookups hknown).symm

end FirstOrder

namespace CommonElement

def unknown (id : Nat) : Term := ⟨{ id }, .var { name := "E", sort := .int }⟩
def set (elements : List Term) : Term := .canonical (.set .set elements [])

/-- An element of two sets. -/
def common : Formula where
  lookups := [.setChoice (set [.int 1, .int 2]) (unknown 1), .setChoice (set [.int 2, .int 3]) (unknown 2)]

def world : World := .ofTerms 3 [unknown 1, unknown 2, .int 1, .int 2, .int 3]

theorem isDecided_common : common.withoutOptions.IsDecided (fun _ => .kItem) world :=
  isDecided_truth _ world

theorem options_common : common.options =
    [⟨unknown 1, [.int 1, .int 2], ⟨0, by decide⟩⟩, ⟨unknown 2, [.int 2, .int 3], ⟨0, by decide⟩⟩] := rfl

theorem isPlain_common : ∀ c ∈ common.options, c.IsPlain (fun _ => .kItem) world := by
  have hplain : ∀ t ∈ [unknown 1, unknown 2, .int 1, .int 2, .int 3], t.Plain (fun _ => .kItem) world :=
    fun t ht => .of_isPlain (World.has_ofTerms (by decide) t ht) (by revert t; decide)
  rw [options_common]
  refine List.forall_mem_cons.mpr ⟨⟨hplain _ (by simp), fun t ht => hplain t ?_⟩,
    List.forall_mem_singleton.mpr ⟨hplain _ (by simp), fun t ht => hplain t ?_⟩⟩
  · revert t
    simp
  · revert t
    simp

theorem length_choices_common : (common.choices.result? 3).any (fun gs => gs.length == 1) = true := by
  rw [choices_eq rfl]
  decide

end CommonElement

open CommonElement in
theorem choices_iff_common : ∃ gs k, common.choices 3 = (.ok gs, k) ∧ gs.length = 1 ∧
    ∀ θ rest, Expr.IsSorted θ →
      ((∃ g ∈ gs, g.Holds θ) ↔ common.Holds θ ∧ ∀ d ∈ common.lookups, d.IsChosen θ rest) := by
  have h := length_choices_common
  obtain ⟨gs, k, hrun, hgs⟩ := choices_iff isDecided_common isPlain_common (by decide)
  have hresult : common.choices.result? 3 = some gs := by rw [Build.result?, show common.choices 3 = _ from hrun]
  rw [hresult, Option.any_some, beq_iff_eq] at h
  exact ⟨gs, k, hrun, h, hgs⟩

namespace OpenSet

def chosen : Var := { name := "E", sort := .int }

/-- The choice from a set that has a one and an unknown part. -/
def choice : Build Lookup := do
  let rest ← Term.var { name := "M", sort := .set }
  return .setChoice (← SetParts.build { ops := .set, elements := [.int 1], base := [rest] }) (← Term.var chosen)

/-- What is chosen is a two. -/
def two (v : Var) : Expr := if v = chosen then (Term.int 2).expr else .var v

/-- Whether the choice can be added, is kept with its unknown part, and gives ones only. -/
def isLost : Bool :=
  match choice 1 with
  | (.ok d, n) => decide (Term.AreHeap n d.terms) &&
    match truth.addLookup d n with
    | (.ok f, k) => !f.isFalse && f.substitution.isEmpty && f.equations.isEmpty && f.lookups.all isKept &&
      match f.choices k with
      | (.ok gs, _) => gs.all fun g => g.substitution.bindings.any fun b => b.1 == chosen && b.2 == .int 1
      | _ => false
    | _ => false
  | _ => false
where
  isKept (d : Lookup) : Bool :=
    match d with
    | .setChoice _ e => e == .canonical (.var chosen) && !d.unknownParts.isEmpty
    | _ => false

theorem isSorted_two : Expr.IsSorted two := by
  intro v
  unfold two
  split
  · rename_i h
    rw [h]
    decide
  · exact SortName.subsortOf_refl v.sort

theorem isChosen_two {d : Lookup} (h : isLost.isKept d) : d.IsChosen two fun _ => [(Term.int 2).expr] := by
  unfold isLost.isKept at h
  split at h
  · rename_i s e
    obtain ⟨he, hopen⟩ := (Bool.and_eq_true _ _).mp h
    have hchosen : e.expr.subst two = (Term.int 2).expr := by
      rw [Term.beq_iff_expr.mp he, Term.expr_of_var rfl, Expr.subst_var]
      exact if_pos rfl
    obtain ⟨part, hpart⟩ : ∃ part, part ∈ (Lookup.setChoice s e).unknownParts :=
      List.exists_mem_of_ne_nil _ fun hnil => by simp [hnil] at hopen
    rw [Lookup.IsChosen, hchosen]
    exact List.mem_append_right _ (List.mem_flatMap.mpr ⟨part, hpart, List.mem_singleton_self _⟩)
  · cases h

theorem not_holds_one {g : Formula} (h : g.substitution.bindings.any fun b => b.1 == chosen && b.2 == .int 1) :
    ¬g.Holds two := by
  intro hθ
  obtain ⟨b, hb, hone⟩ := List.any_eq_true.mp h
  obtain ⟨hv, hvalue⟩ := (Bool.and_eq_true _ _).mp hone
  have heq := hθ.substitution b hb
  rw [eq_of_beq hv, Term.beq_iff_expr.mp hvalue, two, if_pos rfl, Term.expr_of_token rfl, Term.expr_of_token rfl,
    Expr.subst_token] at heq
  injection heq with _ hdigit
  revert hdigit
  decide

end OpenSet

set_option maxRecDepth 100000

open OpenSet in
/-- Only what is known of a collection is chosen from: a solution with an element of the unknown part is one of
no alternative. -/
theorem exists_solution_lost : ∃ (n k : Nat) (f : Formula) (gs : List Formula) (θ : Var → Expr)
    (rest : Term → List Expr), Reached n f ∧ f.isFalse = false ∧ Expr.IsSorted θ ∧ f.Holds θ ∧
      (∀ d ∈ f.lookups, d.IsChosen θ rest) ∧ f.choices n = (.ok gs, k) ∧ ∀ g ∈ gs, ¬g.Holds θ := by
  have h : isLost = true := by decide +kernel
  unfold isLost at h
  split at h
  · rename_i d n _
    obtain ⟨hn, h⟩ := (Bool.and_eq_true _ _).mp h
    have hn : Term.AreHeap n (d.terms ++ truth.terms) := by simpa [truth, terms, Substitution.terms] using hn
    split at h
    · rename_i f k hf
      simp only [Bool.and_eq_true, Bool.not_eq_true', List.isEmpty_iff, List.all_eq_true, and_assoc] at h
      obtain ⟨hfalse, hempty, hequations, hkept, h⟩ := h
      split at h
      · rename_i gs k' hgs
        refine ⟨k, k', f, gs, two, fun _ => [(Term.int 2).expr], .addLookup (.truth n []) hn hf, hfalse,
          isSorted_two, ⟨hfalse, ?_, ?_⟩, fun d hd => isChosen_two (hkept d hd), hgs, fun g hg hθ => ?_⟩
        · rw [Substitution.Holds, List.isEmpty_iff.mp hempty]
          exact List.forall_mem_nil _
        · rw [hequations]
          exact List.forall_mem_nil _
        · exact not_holds_one (List.all_eq_true.mp h g hg) hθ
      · cases h
    · cases h
  · cases h

/-! ### One tuple after the other -/

/-- The tuples of positions are gone through in lexicographic order, each of them once, and what a tuple
gives is the formula without its choices and with what is chosen, if that is not false. -/
theorem choices_tuples {n : Nat} (hf : f.isFalse = false)
    (hends : ∀ is, List.Forall₂ (fun i c => i < c.candidates.length) is f.options → ∀ k, n ≤ k →
      Gives k (fun _ _ => True) (f.withoutOptions.conjoin? (Choice.picked f.options is))) :
    ∃ tuples : List (List Nat), tuples.Pairwise (List.Lex (· < ·)) ∧
      (∀ is, is ∈ tuples ↔ List.Forall₂ (fun i c => i < c.candidates.length) is f.options) ∧
      f.choices = (tuples.map (Choice.picked f.options)).filterMapM f.withoutOptions.conjoin? ∧
      ∃ (results : List (Option Formula)) (k : Nat), f.choices n = (.ok results.reduceOption, k) ∧
        List.Forall₂ (fun is r => CanReturn (f.withoutOptions.conjoin? (Choice.picked f.options is)) r)
          tuples results := by
  have heq : f.choices = ((Choice.tuples f.options).map (Choice.picked f.options)).filterMapM
      f.withoutOptions.conjoin? := by
    rw [choices_eq hf, selections_eq]
  refine ⟨Choice.tuples f.options, Choice.pairwise_tuples _, fun is => Choice.mem_tuples, heq, ?_⟩
  have hall : ∀ es ∈ (Choice.tuples f.options).map (Choice.picked f.options), ∀ k, n ≤ k →
      Gives k (fun _ => CanReturn (f.withoutOptions.conjoin? es)) (f.withoutOptions.conjoin? es) := by
    intro es hes k hk
    obtain ⟨is, his, rfl⟩ := List.mem_map.mp hes
    obtain ⟨o, m, hrun, hm, -⟩ := hends is (Choice.mem_tuples.mp his) k hk
    exact ⟨o, m, hrun, hm, k, m, hrun⟩
  obtain ⟨gs, k, hrun, -, results, hresults, rfl⟩ := Gives.filterMapM hall
  rw [List.forall₂_map_left_iff] at hresults
  exact ⟨results, k, heq ▸ hrun, hresults⟩

open CommonElement in
theorem choices_tuples_common : ∃ (tuples : List (List Nat)) (results : List (Option Formula)) (k : Nat),
    tuples.Pairwise (List.Lex (· < ·)) ∧
      (∀ is, is ∈ tuples ↔ List.Forall₂ (fun i c => i < c.candidates.length) is common.options) ∧
      common.choices 3 = (.ok results.reduceOption, k) ∧ results.reduceOption.length = 1 := by
  have h := length_choices_common
  obtain ⟨tuples, hpairwise, hmem, -, results, k, hrun, -⟩ := choices_tuples (n := 3) (f := common) rfl
    fun is his k hk => gives_picked isDecided_common isPlain_common his hk
  have hresult : common.choices.result? 3 = some results.reduceOption := by
    rw [Build.result?, show common.choices 3 = _ from hrun]
  rw [hresult, Option.any_some, beq_iff_eq] at h
  exact ⟨tuples, results, k, hpairwise, hmem, hrun, h⟩

namespace StrayRest

/-- The equation of two groups of cells with unknown rests, and the choice of a constant for one of the rests. -/
def choice : Build (Option (Equation × Lookup)) := do
  match ← strayRest with
  | [cells, (v, c)] => return some (cells, .setChoice (← SetParts.build { ops := .set, elements := [c] }) v)
  | _ => return none

/-- Whether the equation and the choice can be added, all nodes being told apart by their numbers, but then no
alternative can be made. -/
def clashes : Bool :=
  match choice 1 with
  | (.ok (some ((l, r), d)), n) => decide (Term.AreHeap n [l, r]) &&
    match truth.add l r n with
    | (.ok f, n') => decide (Term.AreHeap n' (d.terms ++ f.terms)) &&
      match f.addLookup d n' with
      | (.ok g, k) => !g.isFalse && match g.choices k with
        | (.error _, _) => true
        | _ => false
      | _ => false
    | _ => false
  | _ => false

end StrayRest

open StrayRest in
/-- The candidate for the rest of some cells may be no cells. The tuple is not left out, it ends everything. -/
theorem exists_choices_clashes : ∃ (n k : Nat) (f : Formula) (c : Clash),
    Reached n f ∧ f.isFalse = false ∧ f.choices n = (.error c, k) := by
  have h : clashes = true := by decide +kernel
  unfold clashes at h
  split at h
  · rename_i l r d n _
    obtain ⟨hn, h⟩ := (Bool.and_eq_true _ _).mp h
    split at h
    · rename_i f n' hf
      obtain ⟨hn', h⟩ := (Bool.and_eq_true _ _).mp h
      split at h
      · rename_i g k hg
        obtain ⟨hfalse, h⟩ := (Bool.and_eq_true _ _).mp h
        have hf : Reached n' f := .add (.truth n []) (of_decide_eq_true hn) hf
        have hg : Reached k g := .addLookup hf (of_decide_eq_true hn') hg
        split at h
        · rename_i c k' hc
          exact ⟨k, k', g, c, hg, by simpa using hfalse, hc⟩
        · cases h
      · cases h
    · cases h
  · cases h

end Formula

end RuleCompiler
