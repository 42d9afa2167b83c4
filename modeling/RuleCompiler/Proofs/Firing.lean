import RuleCompiler.Proofs.Evaluation
import RuleCompiler.Proofs.Formula.Choices
import RuleCompiler.Proofs.Index.Candidates

/-! # Firing

A rule fires by one of its matches, under one solution of its lookups for which all its conditions
evaluate to true. -/

namespace RuleCompiler

open MonadAttach (CanReturn)

/-! ### Solutions -/

/-- What a formula comes to when one candidate is taken for every choice. -/
def Formula.ComesTo (g f : Formula) : Prop :=
  ∃ selection ∈ Formula.selections g.options,
    CanReturn (do (← g.withoutOptions.addEquations selection).simplify) f

theorem Formula.returns_eachChoice {α : Type} {g : Formula} {visit : Formula → Build (Option α)}
    {p : α → Prop}
    (h : ∀ f, g.ComesTo f → Returns (fun o => ∀ a, o = some a → p a) (visit f)) :
    Returns (fun as => ∀ a ∈ as, p a) (g.eachChoice visit) := by
  cases hg : g.isFalse with
  | true =>
    rw [eachChoice_of_isFalse hg]
    exact .pure (List.forall_mem_nil p)
  | false =>
    rw [eachChoice_eq hg]
    refine .filterMapM fun selection hs => ?_
    have hconjoin : Returns (fun o => ∀ f, o = some f → g.ComesTo f) (g.withoutOptions.conjoin? selection) := by
      unfold conjoin?
      rw [← bind_assoc]
      refine (Returns.self _).bind fun f hf => .pure ?_
      split
      · exact fun _ h => by cases h
      · rintro _ ⟨⟩
        exact ⟨selection, hs, hf⟩
    refine hconjoin.bind fun o ho => ?_
    cases o with
    | none => exact .pure fun _ h => by cases h
    | some f => exact h f (ho f rfl)

/-- A condition evaluates to true under the bindings of a formula. -/
def Evaluator.Holds (e : Evaluator) (f : Formula) (condition : Term) : Prop :=
  ∃ c v, CanReturn (f.apply condition) c ∧ CanReturn (e.evaluate c) v ∧ v.boolValue? = some true

theorem Evaluator.returns_allHold (e : Evaluator) (f : Formula) :
    ∀ conditions : List Term, Returns (fun o => o = some true → ∀ c ∈ conditions, e.Holds f c)
      (allHold e.evaluate f conditions)
  | [] => .pure fun _ => List.forall_mem_nil _
  | c :: cs => by
    unfold allHold
    refine (Returns.lift (Returns.self (f.apply c))).bind fun c' hc => ?_
    have hholds : Returns (fun o => ∃ v, CanReturn (e.evaluate c') v ∧ o = v.boolValue?)
        (holds e.evaluate c') :=
      (Returns.self _).bind fun v hv => .pure ⟨v, hv, rfl⟩
    refine hholds.bind fun o ho => ?_
    obtain ⟨v, hv, rfl⟩ := ho
    split
    · rename_i htrue
      refine (returns_allHold e f cs).mono fun o ho h => ?_
      exact List.forall_mem_cons.mpr ⟨⟨c', v, hc, hv, htrue⟩, ho h⟩
    · rename_i hne
      exact .pure fun h => absurd h hne

/-! ### Firings of a rule -/

/-- How a rule comes to fire: the match, the solution of its lookups, and what its result is the
value of. -/
structure Firing.Explained (d : Definition) (r : Rule) (subject : Term) (f : Firing)
    (σ : Substitution) (solution : Formula) (result : Term) : Prop where
  rule : d.rule? f.rule = some r
  matched : ∃ σs, CanReturn (matchAll r.left subject) σs ∧ σ ∈ σs
  solved : ∃ g, CanReturn (Evaluator.formulaOf d.functions r σ) g ∧ g.ComesTo solution
  isSolved : solution.isSolved
  holds : ∀ c ∈ r.requires, d.evaluator.Holds solution c
  built : CanReturn (buildResult f.rule r r.body subject
    (bindFresh r.freshConstants solution.substitution)) result
  value : CanReturn (d.evaluator.evaluate result) f.result

/-- Every firing of a rule has an explanation. -/
theorem Definition.returns_fireRule (d : Definition) (id : Nat) (subject : Term) :
    Returns (fun fs => ∀ f ∈ fs, f.rule = id ∧
      ∃ r σ solution result, f.Explained d r subject σ solution result) (d.fireRule id subject) := by
  unfold fireRule
  split
  · exact .pure (List.forall_mem_nil _)
  · rename_i r hr
    refine (Returns.self _).bind fun σs hσs => .flatMapM_all fun σ hσ => ?_
    unfold fireMatch
    refine (Returns.self _).bind fun g hg => Formula.returns_eachChoice fun s hs => ?_
    refine .ite (fun hsolved => ?_) fun _ => .pure fun _ h => by cases h
    have hfire : Returns (fun o => ∀ f : Firing, o = some f → f.rule = id ∧
        ∃ r σ solution result, f.Explained d r subject σ solution result)
        (fireSolution d.evaluator id r (buildResult id r r.body subject) s) := by
      unfold fireSolution
      refine (Evaluator.returns_allHold d.evaluator s r.requires).bind fun o ho => ?_
      split
      · refine (Returns.lift (Returns.self _)).bind fun t ht => ?_
        refine (Returns.self _).bind fun v hv => .pure ?_
        rintro _ ⟨⟩
        exact ⟨rfl, r, σ, s, t, hr, ⟨σs, hσs, hσ⟩, ⟨g, hg, hs⟩, hsolved, ho rfl, ht, hv⟩
      · exact .pure fun _ h => by cases h
    exact .map (hfire.run { fuel := d.fuel })

/-! ### Lookups -/

namespace Definition

/-- The value of the instance of a term. -/
def valueUnder? (d : Definition) (σ : Substitution) (t : Term) : Build (Option Term) := do
  d.value? (← σ.apply t)

/-- Whether the bindings answer a lookup: what is chosen is a key or an element of the value of the
collection, and what is matched is the value. -/
def answers (d : Definition) (σ : Substitution) (lookup : Term × Term) : Build Bool := do
  let pattern ← σ.apply lookup.2
  match Lookup.ofCall? lookup.1 lookup.2 with
  | some (.setChoice set _) =>
    return (← d.valueUnder? σ set).any fun s => match s.node with
      | .set _ elements _ => elements.contains pattern
      | _ => false
  | some (.mapChoice map _) =>
    return (← d.valueUnder? σ map).any fun m => match m.node with
      | .map _ entries _ => entries.any (·.1 == pattern)
      | _ => false
  | _ => return (← d.valueUnder? σ lookup.1).any (· == pattern)

/-- Whether the bindings answer every lookup of a rule and make its conditions true. -/
def enables (d : Definition) (σ : Substitution) (r : Rule) : Build Bool := do
  let answered ← r.equations.mapM (d.answers σ)
  let conditions ← r.requires.mapM (d.valueUnder? σ)
  return answered.all id && conditions.all fun v => (v.bind (·.boolValue?)) == some true

/-- The subject that a source term stands for, its nodes numbered from `n`. -/
def loweredFrom? (d : Definition) (n : Nat) (t : SourceTerm) : Option Term :=
  ((Session.run {} (d.lower t).run).result? n).bind fun r => r.1.toOption

/-- The production of the elements of sets. -/
def setElement : Sentence :=
  .production { label := "SetItem", sort := .set, arity := 1,
                attributes := Attributes.withValue {} "hook" "SET.element" }

/-- A rule that chooses a set from a set of sets, and an integer from the set it has chosen. -/
def twoChoices : SourceDefinition where
  main := "M"
  modules := [{ name := "M", sentences := [setElement,
    .rule {
      body := .rewrite (.apply "a" [.varOfSort "S" .set] {})
        (.apply "b" [.varOfSort "E" .set, .varOfSort "F" .int] {}) {}
      requires? := some (.apply andLabel [
        .apply "#setChoice" [.varOfSort "E" .set, .varOfSort "S" .set] {},
        .apply "#setChoice" [.varOfSort "F" .int, .varOfSort "E" .set] {}] {}) }] }]
where
  andLabel : String := Term.andLabel
  one : SourceTerm := .apply "SetItem" [.int 1] {}
  subject : SourceTerm := .apply "a" [.apply "SetItem" [one] {}] {}

/-- The match of a rule with one more set and one more integer bound. -/
def choosing (σ : Substitution) (set integer : Term) : Substitution :=
  (σ.insert { name := "E", sort := .set } set).insert { name := "F", sort := .int } integer

set_option maxRecDepth 100000

/-- One round of choices is not enough: the set chosen in it is not chosen from. -/
theorem exists_enabled_not_fireRule : ∃ (d : Definition) (r : Rule) (subject set v : Term)
    (σ : Substitution), compiled? {} twoChoices = some d ∧ d.rule? 0 = some r ∧
      d.loweredFrom? 200 twoChoices.subject = some subject ∧ subject.isGround ∧
      d.loweredFrom? 300 twoChoices.one = some set ∧
      (matchAll r.left subject).result? 400 = some [σ] ∧
      (d.enables (choosing σ set (.int 1)) r).result? 500 = some true ∧
      (d.valueUnder? (choosing σ set (.int 1)) r.right).result? 500 = some (some v) ∧
      (d.fireRule 0 subject).result? 400 = some [] := by
  have h : ((compiled? {} twoChoices).any fun d => (d.rule? 0).any fun r =>
      (d.loweredFrom? 200 twoChoices.subject).any fun s => s.isGround &&
      (d.loweredFrom? 300 twoChoices.one).any fun set =>
      (((matchAll r.left s).result? 400).bind single?).any fun σ =>
        ((d.enables (choosing σ set (.int 1)) r).result? 500 == some true) &&
          ((d.valueUnder? (choosing σ set (.int 1)) r.right).result? 500).any (·.isSome) &&
          ((d.fireRule 0 s).result? 400).any (·.isEmpty)) = true := by
    decide +kernel
  obtain ⟨d, hd, h⟩ := (Option.any_eq_true ..).mp h
  obtain ⟨r, hr, h⟩ := (Option.any_eq_true ..).mp h
  obtain ⟨s, hs, h⟩ := (Option.any_eq_true ..).mp h
  obtain ⟨hground, h⟩ := (Bool.and_eq_true _ _).mp h
  obtain ⟨set, hset, h⟩ := (Option.any_eq_true ..).mp h
  obtain ⟨σ, hσ, h⟩ := (Option.any_eq_true ..).mp h
  simp only [Bool.and_eq_true, beq_iff_eq, and_assoc] at h
  obtain ⟨henables, hvalue, hfires⟩ := h
  obtain ⟨v, hv, hsome⟩ := (Option.any_eq_true ..).mp hvalue
  obtain ⟨v, rfl⟩ := Option.isSome_iff_exists.mp hsome
  obtain ⟨fs, hfs, hnil⟩ := (Option.any_eq_true ..).mp hfires
  rw [List.isEmpty_iff.mp hnil] at hfs
  exact ⟨d, r, s, set, v, σ, hd, hr, hs, hground, hset, eq_of_bind_single? hσ, henables, hv, hfs⟩

/-! ### Single variables -/

/-- Groups of two threads, and a rule that rewrites both threads of each: one becomes `b`, the other
`c`. The rule looks at the number `y` of the first and at the number `x` of the second. -/
def threadGroups : SourceDefinition where
  main := "M"
  modules := [{ name := "M", sentences := [
    .configuration { body := cell "T" (groups.map fun (g, _) => cell g [threads]) },
    .rule { body := inGroups fun g (x, y) _ =>
              [thread (becomes "b") (.varOfSort (g ++ "X") .k) (.int y),
                thread (becomes "c") (.int x) (.varOfSort (g ++ "Y") .k)] }] }]
where
  constant (l : String) : SourceTerm := .apply l [] {}
  becomes (l : String) : SourceTerm := .rewrite (constant "a") (constant l) {}
  cell (l : String) (args : List SourceTerm) : SourceTerm :=
    .apply l args (Attributes.flag {} "cell")
  threads : SourceTerm :=
    .apply "thread" [cell "k" [.varOfSort "K" .k], cell "x" [.varOfSort "I" .k],
        cell "y" [.varOfSort "J" .k]]
      ((Attributes.flag {} "cell").withValue "multiplicity" "*")
  thread (k x y : SourceTerm) : SourceTerm :=
    .apply "thread" [.apply "k" [k] {}, .apply "x" [x] {}, .apply "y" [y] {}] {}
  -- The numbers of the two threads of each group. Both cells of the rule fit the first thread here,
  -- and one of them fits the second thread too. For any order of the instances of a cell there is a
  -- group where this one comes before the other cell, and the first thread before the second.
  groups : List (String × (Int × Int) × Int × Int) :=
    [("g1", (1, 1), 2, 1), ("g2", (1, 2), 2, 2), ("g3", (2, 1), 1, 1), ("g4", (2, 2), 1, 2),
      ("g5", (1, 1), 1, 2), ("g6", (1, 2), 1, 1), ("g7", (2, 1), 2, 2), ("g8", (2, 2), 2, 1)]
  inGroups (contents : String → Int × Int → Int × Int → List SourceTerm) : SourceTerm :=
    .apply "T" (groups.map fun (g, one, other) => .apply g (contents g one other) {}) {}
  subject : SourceTerm :=
    inGroups fun _ one other =>
      [one, other].map fun (x, y) => thread (constant "a") (.int x) (.int y)

/-- The definition that a source compiles to when rewrites are lifted and nothing else is done. -/
def lifted? (src : SourceDefinition) : Option Definition :=
  ((compileWith ⟨[Pass.rewriteLifting], []⟩ {} src).result? 1).bind fun
    | .ok c => some c.definition
    | .error _ => none

/-- The definition with the single variables of its rules marked, new nodes numbered from `n`. -/
def marked? (d : Definition) (n : Nat) : Option Definition :=
  ((Session.run {} (Pass.singleVariables.run d)).result? n).map (·.1.1)

/-- The cell that a marked variable stood in is looked for again without its binding: another one
may be taken, and what the rule makes of the right one is lost. -/
theorem exists_fires_not_marked : ∃ (d d' : Definition) (subject : Term) (fs fs' : List Firing),
    lifted? threadGroups = some d ∧ d.marked? 1000 = some d' ∧
      d.loweredFrom? 2000 threadGroups.subject = some subject ∧ subject.isGround ∧
      (d.fireRule 0 subject).result? 3000 = some fs ∧
      (d'.fireRule 0 subject).result? 3000 = some fs' ∧
      ∃ f ∈ fs, ∀ f' ∈ fs', ¬ f'.result == f.result := by
  have h : ((lifted? threadGroups).any fun d => (d.marked? 1000).any fun d' =>
      (d.loweredFrom? 2000 threadGroups.subject).any fun s => s.isGround &&
        ((d.fireRule 0 s).result? 3000).any fun fs =>
        ((d'.fireRule 0 s).result? 3000).any fun fs' =>
          fs.any fun f => fs'.all fun f' => !(f'.result == f.result)) = true := by
    decide +kernel
  obtain ⟨d, hd, h⟩ := (Option.any_eq_true ..).mp h
  obtain ⟨d', hd', h⟩ := (Option.any_eq_true ..).mp h
  obtain ⟨s, hs, h⟩ := (Option.any_eq_true ..).mp h
  obtain ⟨hground, h⟩ := (Bool.and_eq_true _ _).mp h
  obtain ⟨fs, hfs, h⟩ := (Option.any_eq_true ..).mp h
  obtain ⟨fs', hfs', h⟩ := (Option.any_eq_true ..).mp h
  obtain ⟨f, hf, h⟩ := List.any_eq_true.mp h
  refine ⟨d, d', s, fs, fs', hd, hd', hs, hground, hfs, hfs', f, hf, fun f' hf' => ?_⟩
  simpa using List.all_eq_true.mp h f' hf'

end Definition

end RuleCompiler
