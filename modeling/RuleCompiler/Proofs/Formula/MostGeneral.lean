import RuleCompiler.Proofs.Formula.Completeness
import RuleCompiler.Proofs.Formula.Conjunction

/-! # Solutions of formulas -/

namespace RuleCompiler.Formula

/-- The values of two terms, with the nodes of the values numbered from `n`. -/
def values? (θ : Substitution) (l r : Term) (n : Nat) : Option (Term × Term) :=
  ((θ.apply l).result? n).bind fun a => ((θ.apply r).result? n).map (a, ·)

/-! ### Common instances -/

namespace Configurations

def item : Var := { name := "X", sort := .kItem }
def value : Var := { name := "Y", sort := .kItem }

def unknown (id : Nat) (v : Var) : Term := ⟨{ id }, .var v⟩
def step (t : Term) : Term := .canonical (.app (.const "f") [t] .kItem)

/-- A configuration with a computation of two items and one other cell. -/
def configuration (first other : Term) : Term :=
  .canonical (.cells [⟨"k", .one, .canonical (.seq [first, .constant "a"] none)⟩, ⟨"n", .one, other⟩] [])

/-- The first item is not known on the left, and on the right it is made from what the left side has
in its other cell. -/
def left : Term := configuration (unknown 1 item) (unknown 2 value)
def right : Term := configuration (step (unknown 3 value)) (.constant "b")

def contents : Substitution := ⟨[(item, step (.constant "b")), (value, .constant "b")]⟩

end Configurations

namespace Pairs

/-- The application of `label` in the node `id`. -/
def apply (id : Nat) (label : String) (args : List Term) : Term := ⟨{ id }, .app (.const label) args .kItem⟩

def unknown (id : Nat) (name : String) : Term := ⟨{ id }, .var { name, sort := .kItem }⟩

def before : List Step := [.add (unknown 1 "X") (apply 2 "f" [unknown 3 "Y"]), .simplify]
def left : Term := apply 4 "pair" [unknown 5 "X", apply 6 "f" [unknown 7 "Z"]]
def right : Term := apply 8 "pair" [apply 9 "f" [.constant "a"], unknown 10 "X"]

end Pairs

/-- A variable, and a sequence that begins with it; and how the two come to the same. -/
def growing : Build (Term × Term × Substitution) := do
  let x : Var := { name := "X", sort := .k }
  let y : Var := { name := "Y", sort := .k }
  let l ← Term.var x
  let r ← Term.sequence [← Term.var x, ← Term.var y]
  return (l, r, ⟨[(x, .constant "a"), (y, .dotK)]⟩)

set_option maxRecDepth 100000

/-- What adding equations one after the other comes to, from a formula that states nothing. -/
def conjoin (es : List Equation) : Build Formula := Formula.truth.addEquations es

/-- The bindings hold under the valuation, the values having their nodes numbered from `n`. -/
def bindingsHold (θ : Substitution) (f : Formula) (n : Nat) : Bool :=
  f.substitution.bindings.all fun b =>
    (θ.get? b.1).any fun t => ((θ.apply b.2).result? n).any (t == ·)

/-- A list of two unknown parts, the first of which is empty and the second the unit of lists; and
the values that they have in the end. -/
def emptyParts : Build (List Equation × Substitution) := do
  let whole : Var := { name := "W", sort := .list }
  let first : Var := { name := "L1", sort := .list }
  let second : Var := { name := "L2", sort := .list }
  let both ← (← ListParts.concat (← ListParts.concat { ops := .list } (← Term.var first))
    (← Term.var second)).build
  let empty ← ListParts.build { ops := .list }
  let unit := CollectionOps.list.unitTerm
  return ([(← Term.var whole, both), (← Term.var first, empty), (← Term.var second, unit)],
    ⟨[(first, empty), (second, unit), (whole, unit)]⟩)

end RuleCompiler.Formula

/-! ## Most general unifiers

Unification of first-order terms decides whether they have a common instance. Where they have one, the bindings
make a common instance that every other is an instance of: they say neither less nor more than the equation. -/

namespace RuleCompiler

/-- The same terms, with nodes numbered from `n` on. -/
def World.advance (w : World) (n : Nat) : World := { w with next := n }

theorem World.le_advance {w : World} {n : Nat} (h : w.next ≤ n) : w ≤ w.advance n := ⟨h, fun _ _ => rfl, id⟩

namespace Formula

/-- The values are of the sorts of the variables, and make both terms the same. -/
structure Unifies (θ : Var → Expr) (l r : Term) : Prop where
  sorted : Expr.IsSorted θ
  same : l.expr.subst θ = r.expr.subst θ

section Conjoins
variable {sorts : String → SortName} {w : World} {f : Formula} {l r : Term} {θ : Var → Expr}

theorem Conjoins.holds_of_unifies (hf : Conjoins sorts w truth [(l, r)] f) (hθ : Unifies θ l r) : f.Holds θ :=
  hf.complete θ hθ.sorted ⟨rfl, List.forall_mem_nil _, List.forall_mem_nil _⟩ (List.forall_mem_singleton.mpr hθ.same)

/-- The bindings are a solution themselves. -/
theorem Conjoins.unifies_bindings (hf : Conjoins sorts w truth [(l, r)] f) (hfalse : f.isFalse = false) :
    Unifies (Expr.ofValues f.substitution.get?) l r := by
  have hresolved := hf.decided.resolved
  have hholds : f.Holds (Expr.ofValues f.substitution.get?) :=
    ⟨hfalse, hresolved.holds_ofValues, by rw [hf.decided.equations]; exact List.forall_mem_nil _⟩
  exact ⟨Expr.isSorted_ofValues fun v u hu => hresolved.sorted _ (Substitution.mem_bindings hu),
    (hf.holds _ hholds).2 (l, r) (List.mem_singleton_self _)⟩

theorem Conjoins.isFalse_iff (hf : Conjoins sorts w truth [(l, r)] f) : f.isFalse ↔ ¬∃ θ, Unifies θ l r := by
  refine ⟨fun hfalse ⟨θ, hθ⟩ => not_holds_of_isFalse hfalse (hf.holds_of_unifies hθ), fun hnone => ?_⟩
  by_contra hfalse
  exact hnone ⟨_, hf.unifies_bindings (by simpa using hfalse)⟩

/-- A valuation under which the bindings are true gives every variable the value of what is put for it. -/
theorem Holds.eq_subst (hθ : f.Holds θ) (v : Var) : θ v = (Expr.ofValues f.substitution.get? v).subst θ := by
  rw [← Expr.subst_var (θ := Expr.ofValues f.substitution.get?),
    Expr.subst_ofValues fun _ _ => hθ.substitution.get?, Expr.subst_var]

/-- Terms that the bindings make the same are given equal values by the substitution. -/
theorem IsDecided.exists_values (hf : f.IsDecided sorts w) (hl : l.Plain sorts w) (hr : r.Plain sorts w)
    (h : Unifies (Expr.ofValues f.substitution.get?) l r) {n : Nat} (hn : w.next ≤ n) :
    ∃ a b, values? f.substitution l r n = some (a, b) ∧ a == b := by
  have hw := World.le_advance hn
  obtain ⟨a, w₁, ha, -, -, -, hexpr⟩ := (hf.mono hw).isFirstOrder.makes_apply (hl.mono hw)
  obtain ⟨b, w₂, hb, -, -, -, hexpr'⟩ := (hf.mono hw).isFirstOrder.makes_apply (hr.mono hw)
  have hresult {t u : Term} {m : Nat} (h : f.apply t n = (.ok u, m)) :
      (f.substitution.apply t).result? n = some u := by
    rw [Build.result?, show f.substitution.apply t n = _ from h]
  refine ⟨a, b, by rw [values?, hresult ha, hresult hb]; rfl, Term.beq_iff_expr.mpr ?_⟩
  rw [hexpr, hexpr', instanceOf, instanceOf, h.same]

end Conjoins

/-- Unification of two terms made of variables, tokens and applications, with one sort for each label and without
don't-care variables and lookups. It finds false just what has no common instance of the right sorts; otherwise
nothing is left but bindings of the right sorts, which make both terms the same, and every valuation that does
so is theirs, followed by itself. -/
theorem unify_mostGeneral {sorts : String → SortName} {l r : Term} {n : Nat} (hn : Term.AreNumbered n [l, r])
    (hl : l.IsPlain sorts) (hr : r.IsPlain sorts) :
    ∃ f n', unify l r n = (.ok f, n') ∧ (f.isFalse ↔ ¬∃ θ, Unifies θ l r) ∧
      (f.isFalse = false → f.isSolved ∧ Unifies (Expr.ofValues f.substitution.get?) l r ∧
        (∀ k, n' ≤ k → ∃ a b, values? f.substitution l r k = some (a, b) ∧ a == b) ∧
        ∀ θ, Unifies θ l r → ∀ v, θ v = (Expr.ofValues f.substitution.get? v).subst θ) := by
  have hl : l.Plain sorts (World.ofTerms n [l, r]) := .of_isPlain (World.has_ofTerms hn l (by simp)) hl
  have hr : r.Plain sorts (World.ofTerms n [l, r]) := .of_isPlain (World.has_ofTerms hn r (by simp)) hr
  obtain ⟨f, w, hrun, hw, -, hf⟩ := makes_add (isDecided_truth sorts _) hl hr
  refine ⟨f, w.next, hrun, hf.isFalse_iff, fun hfalse => ?_⟩
  have hunifies := hf.unifies_bindings hfalse
  refine ⟨?_, hunifies, fun k hk => hf.decided.exists_values (hl.mono hw) (hr.mono hw) hunifies hk, fun θ hθ => ?_⟩
  · rw [isSolved, hfalse, hf.decided.equations, hf.decided.lookups]
    rfl
  · exact (hf.holds_of_unifies hθ).eq_subst

namespace Numbers

def unknown (id : Nat) (name : String) (sort : SortName) : Term := ⟨{ id }, .var { name, sort }⟩
def left : Term := Pairs.apply 1 "pair" [unknown 2 "X" .kItem, unknown 3 "X" .kItem]
def right : Term := Pairs.apply 4 "pair" [unknown 5 "N" .int, unknown 6 "M" .int]

end Numbers

open Numbers in
/-- The variable of sort `KItem` is bound to one of sort `Int`, and not the other way. -/
theorem unify_mostGeneral_numbers : ∃ f n', unify left right 7 = (.ok f, n') ∧ f.isFalse = false ∧
    f.substitution.size = 2 ∧
      ∀ θ, Unifies θ left right → ∀ v, θ v = (Expr.ofValues f.substitution.get? v).subst θ := by
  have h : ((unify left right).result? 7).any (fun f => !f.isFalse && f.substitution.size == 2) = true := by
    decide
  have hleft : left.IsPlain fun _ => .kItem := by decide
  have hright : right.IsPlain fun _ => .kItem := by decide
  obtain ⟨f, n', hrun, -, hgeneral⟩ := unify_mostGeneral (n := 7) (by decide) hleft hright
  rw [Build.result?, hrun] at h
  obtain ⟨hfalse, hsize⟩ := (Bool.and_eq_true _ _).mp h
  have hfalse : f.isFalse = false := by simpa using hfalse
  exact ⟨f, n', hrun, hfalse, by simpa using hsize, (hgeneral hfalse).2.2.2⟩

end Formula

end RuleCompiler
