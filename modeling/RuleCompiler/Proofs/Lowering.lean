import RuleCompiler.Lowering
import RuleCompiler.Proofs.Returns
import RuleCompiler.Proofs.Term.Walk

/-! # Lowering makes tidy terms

Every node of a lowered term comes out of a builder. -/

namespace RuleCompiler

open Term

namespace Lower

/-- What is lowered comes out tidy. -/
abbrev Tidies (go : Rec) : Prop := ∀ t, Returns (Tidy true) (go t)

variable {go : Rec}

theorem tidy_sequence (hgo : Tidies go) (items : List SourceTerm) :
    Returns (Tidy true) (sequence go items) :=
  (Returns.mapM_all fun t _ => hgo t).bind fun _ hts =>
    .lift (.of_from fun k => kept_sequence (tidy_kept true) (Nat.le_refl k) hts)

/-- The contents of the cells put together so far are tidy. -/
abbrev TidyCells (p : CellParts) : Prop := p.Holds (Tidy true) fun _ => True

theorem tidy_addToBag (hgo : Tidies go) {p : CellParts} (h : TidyCells p) (t : SourceTerm) :
    Returns TidyCells (addToBag go p t) := by
  refine .ite (fun _ => .pure h) fun _ => (hgo t).bind fun u hu => ?_
  split
  · exact .lift (.of_from fun _ => CellParts.kept_concat (n := 0) (tidy_kept true) h hu)
  · exact .lift (.of_from fun _ => CellParts.kept_concat (n := 0) (tidy_kept true) h hu)
  · exact .throw _

theorem tidy_cells {p : CellParts} (h : TidyCells p) : Returns (Tidy true) p.build :=
  .of_from fun k => CellParts.kept_build (tidy_kept true) (Nat.le_refl k) h

theorem tidy_bag (hgo : Tidies go) (items : List SourceTerm) : Returns (Tidy true) (bag go items) := by
  refine Returns.bind (q := TidyCells) ?_ fun p hp => .lift (tidy_cells hp)
  exact .foldlM (CellParts.holds_empty _ _) fun p hp t _ => tidy_addToBag hgo hp t

theorem tidy_cellContent (hgo : Tidies go) (sig : Signature) (items : List SourceTerm) :
    Returns (Tidy true) (cellContent sig go items) := by
  unfold cellContent
  refine .ite (fun _ => tidy_sequence hgo items) fun _ => ?_
  refine .ite (fun _ => tidy_bag hgo items) fun _ => ?_
  split
  · exact .throw _
  · refine (tidy_bag hgo _).bind fun l hl => (tidy_bag hgo _).bind fun r hr => ?_
    exact .lift (tidy_newRewrite hl fun _ => hr)

theorem tidy_listOf (role : CollectionRole) {args : List Term} (h : ∀ t ∈ args, Tidy true t) :
    Returns (Tidy true) (listOf role args) := by
  refine Returns.bind (q := ListParts.Holds (Tidy true)) ?_ fun p hp =>
    .of_from fun k => ListParts.kept_build (tidy_kept true) (Nat.le_refl k) hp
  refine .foldlM (ListParts.holds_empty _ _) fun p hp t ht => ?_
  cases role with
  | concat =>
    exact .of_from fun k => ListParts.kept_concat (tidy_kept true) (Nat.le_refl k) hp (h t ht)
  | element => exact .pure (ListParts.holds_addItem hp (h t ht))
  | unit => exact .pure hp

theorem tidy_setOf (role : CollectionRole) {args : List Term} (h : ∀ t ∈ args, Tidy true t) :
    Returns (Tidy true) (setOf role args) := by
  refine .of_from fun k => SetParts.kept_build (tidy_kept true) (Nat.le_refl k) ?_
  refine List.foldlRecOn args _ (SetParts.holds_empty _ _) fun p hp t ht => ?_
  cases role with
  | concat => exact SetParts.holds_concat (n := 0) (k := 0) (tidy_kept true) hp (h t ht)
  | element => exact SetParts.holds_add hp (h t ht)
  | unit => exact hp

theorem tidy_mapOf? {role : CollectionRole} {args : List Term} {p : MapParts}
    (h : ∀ t ∈ args, Tidy true t) (hp : mapOf? role args = some p) :
    p.Holds (Tidy true) := by
  have hempty := MapParts.holds_empty (Tidy true) .map
  unfold mapOf? at hp
  split at hp
  · cases hp
    exact MapParts.holds_concatAll (n := 0) (k := 0) (tidy_kept true) hempty h
  · cases hp
    exact MapParts.holds_put hempty (h _ (by simp)) (h _ (by simp))
  · cases hp
    exact hempty
  · cases hp

theorem tidy_collection (kind : CollectionKind) (role : CollectionRole) {args : List Term}
    (h : ∀ t ∈ args, Tidy true t) (a : Attributes) :
    Returns (Tidy true) (collection kind role args a) := by
  cases kind with
  | list => exact .lift (tidy_listOf role h)
  | set => exact .lift (tidy_setOf role h)
  | map =>
    unfold collection
    dsimp only
    split
    · rename_i p hp
      have hp := tidy_mapOf? h hp
      exact .lift (.of_from fun k => MapParts.kept_build (tidy_kept true) (Nat.le_refl k) hp)
    · exact .throw _

theorem tidy_application (hgo : Tidies go) (sig : Signature) (label : String)
    (args : List SourceTerm) (a : Attributes) :
    Returns (Tidy true) (application sig go label args a) := by
  unfold application
  refine .ite (fun _ => ?_) fun _ => ?_
  · refine (tidy_cellContent hgo sig args).bind fun t ht => .lift (tidy_cells ?_)
    exact CellParts.holds_put (CellParts.holds_empty _ _) ht
  · have hargs : Returns (fun ts => ∀ t ∈ ts, Tidy true t) (args.mapM go) :=
      .mapM_all fun t _ => hgo t
    split
    · exact hargs.bind fun ts hts => tidy_collection _ _ hts a
    · exact hargs.bind fun ts hts => .lift (tidy_newApp hts)

theorem tidy_canonical {n : Node Term} (hn : n.isTidy) (hc : n.children = []) :
    Tidy true (canonical n) := by
  refine tidy_of_sides hn fun c h => ?_
  have hm : c ∈ (canonical n).children := sides_subset h
  rw [children, hc] at hm
  cases hm

/-- One node of a source term. -/
theorem tidy_node (hgo : Tidies go) (sig : Signature) : Tidies (node sig go) := by
  intro t
  unfold node
  split
  · exact .pure (tidy_canonical rfl rfl)
  · exact .pure (tidy_canonical rfl rfl)
  · exact tidy_sequence hgo _
  · refine (hgo _).bind fun f hf => ?_
    refine Returns.bind (.mapM_all fun t _ => hgo t) fun ts hts => .lift (tidy_newApp ?_)
    exact List.forall_mem_cons.mpr ⟨hf, hts⟩
  · exact tidy_cellContent hgo sig _
  · exact tidy_application hgo sig _ _ _
  · exact .pure (tidy_canonical rfl rfl)
  · exact tidy_sequence hgo _
  · refine .ite (fun _ => .bind' fun id => ?_) fun _ => .bind' fun id => ?_
    all_goals exact .lift (tidy_newVar true _)
  · refine (hgo _).bind fun l hl => (hgo _).bind fun r hr => ?_
    exact .lift (tidy_newRewrite hl fun _ => hr)
  · exact .pure (tidy_canonical rfl rfl)

theorem tidy_upTo (sig : Signature) : ∀ n, Tidies (upTo sig n)
  | 0 => fun _ => .pure (tidy_canonical rfl rfl)
  | n + 1 => tidy_node (tidy_upTo sig n) sig

end Lower

/-- Lowered terms are tidy. -/
theorem Signature.tidy_lower (sig : Signature) (t : SourceTerm) :
    Returns (Tidy true) (sig.lower t) :=
  Lower.tidy_upTo sig t.size t

end RuleCompiler

/-! ## Sides of lowered terms -/

namespace RuleCompiler

open SourceTerm

namespace Signature

/-- What a source term is lowered to in a session of its own, with the nodes numbered from `n`. -/
def lowered? (sig : Signature) (t : SourceTerm) (n : Nat) : Option Term :=
  ((Session.run {} (sig.lower t).run).result? n).bind fun r => r.1.toOption

/-- The variables of the sides of a lowered term, and of what the sides of the source term are lowered
to. -/
def sideVars? (sig : Signature) (t : SourceTerm) : Option (List (List Var)) := do
  let u ← sig.lowered? t 1
  let l ← u.leftSide.result? 1000
  let r ← u.rightSide.result? 1000
  let l' ← sig.lowered? (t.project .left) 1
  let r' ← sig.lowered? (t.project .right) 1
  return [l, r, l', r'].map Term.vars

/-- Two cells next to each other in a third one. -/
def twoCells : Signature where
  labels := {}
  cells := ⟨[("T", ⟨.one, .k, none⟩), ("k", ⟨.one, .k, some "T"⟩), ("env", ⟨.one, .k, some "T"⟩)]⟩

end Signature

/-- A cell rewritten as a whole next to one that is not named. -/
def besideRewrite : SourceTerm :=
  let k (content : String) : SourceTerm := .apply "k" [.apply content [] {}] {}
  .apply "T" [.rewrite (k "a") (k "b") {}, .apply "env" [.var "_" {}] {}] {}

set_option maxRecDepth 100000

/-- An anonymous variable next to a cell that is rewritten becomes two variables, one a side, so no
renaming makes the sides those of the source term. -/
theorem exists_sides_apart : ∃ l r l' r' : List Var,
    Signature.twoCells.sideVars? besideRewrite = some [l, r, l', r'] ∧
      ¬ ∃ ρ : Var → Var, Function.Injective ρ ∧ l.map ρ = l' ∧ r.map ρ = r' := by
  have h : Signature.twoCells.sideVars? besideRewrite = some
      [[⟨"_", .k, 1⟩], [⟨"_", .k, 2⟩], [⟨"_", .k, 1⟩], [⟨"_", .k, 1⟩]] := by
    decide +kernel
  refine ⟨_, _, _, _, h, fun ⟨ρ, hρ, hl, hr⟩ => ?_⟩
  have hsame := hρ (List.head_eq_of_cons_eq (hl.trans hr.symm))
  cases hsame

end RuleCompiler
