import RuleCompiler.Firing
import RuleCompiler.Proofs.Compilation

/-! # Evaluation -/

namespace RuleCompiler

open Term (Tidy)

namespace Definition

/-- The value of a term, if evaluation comes to an end within the fuel and the depth there is. -/
def value? (d : Definition) (t : Term) : Build (Option Term) := do
  let (v, b) ← (d.evaluator.evaluate t).run { fuel := d.fuel }
  return if b.exhausted || b.tooDeep then none else some v

/-- The value of an instance of the value of a term, and the value of the instance of the term. -/
def instanceValues? (d : Definition) (σ : Substitution) (t : Term) : Build (Option (Term × Term)) := do
  match ← d.value? t with
  | none => return none
  | some v =>
    let a ← d.value? (← σ.apply v)
    let b ← d.value? (← σ.apply t)
    return (a.bind fun a => b.map (a, ·))

/-- Whether an integer is in a set of one integer variable. -/
def oneInSet : Build Term := do
  let element ← Term.var { name := "X", sort := .int }
  Term.app (.const "Set:in") [.int 1, ← SetParts.build { ops := .set, elements := [element] }] .bool

/-- The values of `oneInSet` and of an instance of it. -/
def oneInSetValues (d : Definition) : Build (Option (Term × Term)) := do
  d.instanceValues? ⟨[({ name := "X", sort := .int }, .int 1)]⟩ (← oneInSet)

/-- A definition without any rule. -/
def noRules : SourceDefinition := { main := "M", modules := [{ name := "M", sentences := [] }] }

/-- A rule that asks whether an integer is in a set of its variable. -/
def memberRule : SourceDefinition where
  main := "M"
  modules := [{ name := "M", sentences := [
    .production { label := "SetItem", sort := .set, arity := 1,
                  attributes := Attributes.withValue {} "hook" "SET.element" },
    .rule { body := .rewrite (symbol "a" [x])
              (symbol "b" [symbol "Set:in" [.int 1, symbol "SetItem" [x]]]) {} }] }]
where
  symbol (l : String) (args : List SourceTerm) : SourceTerm := .apply l args {}
  x : SourceTerm := .varOfSort "X" .int

set_option maxRecDepth 100000

/-- An integer is found not to be in a set of a variable, in a term by itself and on the right of a
rule. -/
theorem oneInSet_answered :
    ((compiled? {} noRules).any fun d => d.evaluator.anywhereRules.isEmpty &&
      (d.oneInSetValues.result? 1).any fun r => r.any fun r =>
        r.1.boolValue? == some false && r.2.boolValue? == some true) ∧
    (compiled? { partialEvaluation := false } memberRule).any fun d =>
      (compiled? {} memberRule).any fun d' => (d.lowered? (.apply "a" [.int 1] {})).any fun s =>
        (((d.step s).result? 1).bind single?).any fun f =>
          (((d'.step s).result? 1).bind single?).any fun f' =>
            f.rule == f'.rule && !(f.result == f'.result) := by
  decide +kernel

/-- An integer is found not to be in a set of a variable, though it is in an instance of it. -/
theorem exists_unsound_value : ∃ (d : Definition) (a b : Term), d.IsCompiled ∧
    d.evaluator.anywhereRules = [] ∧ d.oneInSetValues.result? 1 = some (some (a, b)) ∧
    a.boolValue? = some false ∧ b.boolValue? = some true := by
  obtain ⟨h, -⟩ := oneInSet_answered
  obtain ⟨d, hd, h⟩ := (Option.any_eq_true ..).mp h
  rw [Bool.and_eq_true] at h
  obtain ⟨r, hr, h'⟩ := (Option.any_eq_true ..).mp h.2
  obtain ⟨⟨a, b⟩, hab, h''⟩ := (Option.any_eq_true ..).mp h'
  rw [Bool.and_eq_true, beq_iff_eq, beq_iff_eq] at h''
  exact ⟨d, a, b, isCompiled_of_compiled? hd, List.isEmpty_iff.mp h.1, hab ▸ hr, h''⟩

/-- Partial evaluation answers before the variable is known, and the step comes out otherwise. -/
theorem exists_step_changed : ∃ (d d' : Definition) (subject : Term) (f f' : Firing),
    compiled? { partialEvaluation := false } memberRule = some d ∧
    compiled? {} memberRule = some d' ∧
    d.lowered? (.apply "a" [.int 1] {}) = some subject ∧
    (d.step subject).result? 1 = some [f] ∧ (d'.step subject).result? 1 = some [f'] ∧
    f.rule = f'.rule ∧ ¬ f.result == f'.result := by
  obtain ⟨-, h⟩ := oneInSet_answered
  obtain ⟨d, hd, h⟩ := (Option.any_eq_true ..).mp h
  obtain ⟨d', hd', h⟩ := (Option.any_eq_true ..).mp h
  obtain ⟨s, hs, h⟩ := (Option.any_eq_true ..).mp h
  obtain ⟨f, hf, h⟩ := (Option.any_eq_true ..).mp h
  obtain ⟨f', hf', h⟩ := (Option.any_eq_true ..).mp h
  rw [Bool.and_eq_true, beq_iff_eq, Bool.not_eq_true'] at h
  exact ⟨d, d', s, f, f', hd, hd', hs, eq_of_bind_single? hf, eq_of_bind_single? hf', h.1, by simp [h.2]⟩

end Definition

end RuleCompiler
