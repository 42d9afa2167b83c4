import RuleCompiler.Formula.Solve

/-! # Choices

A formula may wait for a choice of some key of a map or some element of a set. Once the
collection is known to hold candidates, the formula stands for the alternatives that choose one
each. They are gone through as an odometer counts: every choice is a wheel that shows one of its
candidates, the last wheel turns fastest, and a combination that makes the formula false is passed
over. -/

namespace RuleCompiler

open Formula (Equation)

/-- A choice, and the candidate that it shows. -/
structure Choice where
  target : Term
  candidates : List Term
  position : Fin candidates.length

namespace Choice

/-- The choice at its first candidate, if there is any. -/
def among? (target : Term) (candidates : List Term) : Option Choice :=
  if h : 0 < candidates.length then some ⟨target, candidates, 0, h⟩ else none

def atPosition (c : Choice) (i : Fin c.candidates.length) : Choice := { c with position := i }

def first (c : Choice) : Choice := c.atPosition ⟨0, c.position.pos⟩

/-- The choice at its next candidate, unless it shows the last. -/
def next? (c : Choice) : Option Choice :=
  if h : c.position + 1 < c.candidates.length then some (c.atPosition ⟨c.position + 1, h⟩) else none

/-- What is chosen is the candidate that is shown. -/
def equation (c : Choice) : Equation := (c.target, c.candidates[c.position])

/-- One combination further: the last choice goes to its next candidate; one that shows its last
goes back to its first, and the choice before it goes on. Nothing when every choice shows its last
candidate. -/
def turn? : List Choice → Option (List Choice)
  | [] => none
  | c :: cs =>
    match turn? cs with
    | some cs => some (c :: cs)
    | none => c.next?.map (· :: cs.map first)

/-- Every combination, the last choice varying fastest. -/
def combinations : List Choice → List (List Choice)
  | [] => [[]]
  | c :: cs =>
    (List.finRange c.candidates.length).flatMap fun i =>
      (combinations cs).map (c.atPosition i :: ·)

/-- The combinations from the one that is shown on. -/
def onwards : List Choice → List (List Choice)
  | [] => [[]]
  | c :: cs =>
    (onwards cs).map (c :: ·) ++
      ((List.finRange c.candidates.length).drop (c.position + 1)).flatMap fun i =>
        (combinations cs).map (c.atPosition i :: ·)

/-! ### Turning -/

theorem turn?_of_some {c : Choice} {cs ds : List Choice} (h : turn? cs = some ds) :
    turn? (c :: cs) = some (c :: ds) := by
  rw [turn?, h]

theorem turn?_of_none {c : Choice} {cs : List Choice} (h : turn? cs = none) :
    turn? (c :: cs) = c.next?.map (· :: cs.map first) := by
  rw [turn?, h]

theorem combinations_cons (c : Choice) (cs : List Choice) : combinations (c :: cs) =
    (List.finRange c.candidates.length).flatMap fun i =>
      (combinations cs).map (c.atPosition i :: ·) := rfl

theorem onwards_cons (c : Choice) (cs : List Choice) : onwards (c :: cs) =
    (onwards cs).map (c :: ·) ++
      ((List.finRange c.candidates.length).drop (c.position + 1)).flatMap fun i =>
        (combinations cs).map (c.atPosition i :: ·) := rfl

theorem drop_finRange {n : Nat} (i : Fin n) :
    (List.finRange n).drop i = i :: (List.finRange n).drop (i + 1) := by
  rw [List.drop_eq_getElem_cons (by rw [List.length_finRange]; exact i.isLt), List.getElem_finRange]
  rfl

theorem combinations_first (cs : List Choice) : combinations (cs.map first) = combinations cs := by
  induction cs with
  | nil => rfl
  | cons c cs ih =>
    rw [List.map_cons, combinations_cons, combinations_cons, ih]
    rfl

theorem combinations_turn? {cs ds : List Choice} (h : turn? cs = some ds) :
    combinations ds = combinations cs := by
  induction cs generalizing ds with
  | nil => cases h
  | cons c cs ih =>
    rcases hturn : turn? cs with _ | es
    · rw [turn?_of_none hturn] at h
      obtain ⟨c', hc, rfl⟩ := Option.map_eq_some_iff.mp h
      obtain ⟨_, hc⟩ := Option.dite_none_right_eq_some.mp hc
      cases hc
      rw [combinations_cons, combinations_cons, combinations_first]
      rfl
    · rw [turn?_of_some hturn] at h
      cases h
      rw [combinations_cons, combinations_cons, ih hturn]

/-- With every choice at its first candidate, all combinations are to come. -/
theorem onwards_first (cs : List Choice) : onwards (cs.map first) = combinations cs := by
  induction cs with
  | nil => rfl
  | cons c cs ih =>
    have hrange : List.finRange c.candidates.length = _ := drop_finRange ⟨0, c.position.pos⟩
    rw [List.map_cons, onwards_cons, combinations_cons, ih, combinations_first, hrange, List.flatMap_cons]
    rfl

/-- The combination that is shown comes first, and then those from the next one on. -/
theorem onwards_eq (cs : List Choice) : onwards cs = cs :: ((turn? cs).map onwards).getD [] := by
  induction cs with
  | nil => rfl
  | cons c cs ih =>
    rw [onwards_cons, ih]
    rcases hturn : turn? cs with _ | ds
    · rw [turn?_of_none hturn]
      by_cases h : c.position + 1 < c.candidates.length
      · have hnext : c.next? = some (c.atPosition ⟨c.position + 1, h⟩) := dif_pos h
        rw [hnext, drop_finRange ⟨c.position + 1, h⟩]
        simp only [Option.map_some, Option.getD_some, onwards_cons, onwards_first, combinations_first]
        rfl
      · have hnext : c.next? = none := dif_neg h
        rw [hnext, List.drop_eq_nil_of_le (by rw [List.length_finRange]; omega)]
        rfl
    · rw [turn?_of_some hturn]
      simp only [Option.map_some, Option.getD_some, onwards_cons, combinations_turn? hturn, List.map_cons,
        List.cons_append]

end Choice

/-- The choice that a lookup leaves, where its collection has known candidates. -/
def Lookup.choice? : Lookup → Option Choice
  | mapChoice map key =>
    match map.node with
    | .map _ entries _ => Choice.among? key (entries.map (·.1))
    | _ => none
  | setChoice set element =>
    match set.node with
    | .set _ elements _ => Choice.among? element elements
    | _ => none
  | _ => none

/-- The alternatives of a formula that are still to come. -/
structure Choices where
  /-- The formula without its choices; none once every combination was tried. -/
  base : Option Formula
  wheels : List Choice

namespace Formula

/-- The choices with known candidates. -/
def options (f : Formula) : List Choice := f.lookups.filterMap Lookup.choice?

/-- The formula without the choices that have candidates. -/
def withoutOptions (f : Formula) : Formula :=
  { f with lookups := f.lookups.filter fun d => d.choice?.isNone }

/-- The formula with more equations, unless they make it false. -/
def conjoin? (f : Formula) (es : List Equation) : Build (Option Formula) := do
  let g ← (← f.addEquations es).simplify
  return if g.isFalse then none else some g

end Formula

namespace Choices

/-- Every choice at its first candidate. -/
def ofFormula (f : Formula) : Choices :=
  if f.isFalse then { base := none, wheels := [] }
  else { base := some f.withoutOptions, wheels := f.options }

/-- The combinations that are still to be tried. -/
def ahead (c : Choices) : List (List Choice) :=
  match c.base with
  | none => []
  | some _ => Choice.onwards c.wheels

/-- Count on; without a formula once every combination was tried. -/
def advance (c : Choices) : Choices :=
  match Choice.turn? c.wheels with
  | some wheels => { c with wheels }
  | none => { base := none, wheels := c.wheels.map Choice.first }

theorem ahead_eq {c : Choices} {f : Formula} (h : c.base = some f) :
    c.ahead = c.wheels :: c.advance.ahead := by
  rw [ahead, h, advance]
  dsimp only
  rw [Choice.onwards_eq]
  cases Choice.turn? c.wheels with
  | none => rfl
  | some wheels => rw [ahead, h]; rfl

/-- What is left when at least one combination was tried. -/
abbrev Later (c : Choices) := { rest : Choices // rest.ahead.length < c.ahead.length }

def later (c : Choices) {f : Formula} (h : c.base = some f) : c.Later :=
  ⟨c.advance, by rw [ahead_eq h]; exact Nat.lt_succ_self _⟩

def Later.trans {c : Choices} (rest : c.Later) (last : rest.val.Later) : c.Later :=
  ⟨last.val, Nat.lt_trans last.property rest.property⟩

/-- The next alternative that is not false, and what comes after it. -/
def next (c : Choices) : Build (Option (Formula × c.Later)) := do
  match h : c.base with
  | none => return none
  | some f =>
    let rest := c.later h
    match ← f.conjoin? (c.wheels.map Choice.equation) with
    | some g => return some (g, rest)
    | none => return (← rest.val.next).map fun (g, last) => (g, rest.trans last)
termination_by c.ahead.length
decreasing_by exact rest.property

/-- Go through the alternatives, one after the other. -/
def each {α : Type} (c : Choices) (visit : Formula → Build (Option α)) : Build (List α) := do
  match ← c.next with
  | none => return []
  | some (g, rest) =>
    match ← visit g with
    | some a => return a :: (← rest.val.each visit)
    | none => rest.val.each visit
termination_by c.ahead.length
decreasing_by all_goals exact rest.property

end Choices

namespace Formula

/-- Go through the ways to choose that do not make the formula false, one after the other. -/
def eachChoice {α : Type} (f : Formula) (visit : Formula → Build (Option α)) : Build (List α) :=
  (Choices.ofFormula f).each visit

/-- Every way to choose that does not make the formula false. -/
def choices (f : Formula) : Build (List Formula) := f.eachChoice fun g => return some g

end Formula

end RuleCompiler
