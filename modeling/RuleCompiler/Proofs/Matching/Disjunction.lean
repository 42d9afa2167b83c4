import RuleCompiler.Automaton.Basic
import RuleCompiler.Proofs.Matching.Determinacy
import RuleCompiler.Proofs.Matching.Operands
import RuleCompiler.Proofs.Term.Branches

/-! # Branches that are left out

A branch of a disjunction is not tried where the head of the subject tells that its pattern cannot match:
an application has another label or is a token, or a token is another one or an application. So the
branches that are tried find all that there is to be found, as long as the patterns are different; and the
disjunctions of merged rules have different patterns. -/

namespace RuleCompiler

open Term (Branch candidateBranches headAdmits listedBranches)

variable {p s t : Term} {bs : List Branch} {st : MatchState}

/-! ### Heads -/

namespace Term

theorem headAdmits_self (p : Term) : p.headAdmits p := by
  unfold headAdmits
  cases hp : p.node with
  | app label => cases label <;> simp
  | _ => simp

end Term

namespace Matching

/-- Where the head of the subject does not admit the pattern, nothing is found. -/
theorem node_of_not_headAdmits {go deeper : Matcher} (h : p.headAdmits s = false) :
    node go deeper p s st = pure [] := by
  have hne : (p == s) = false := by
    by_contra heq
    rw [← headAdmits_congr (p := p) (by simpa using heq), p.headAdmits_self] at h
    cases h
  unfold node
  rw [hne]
  split
  · rfl
  unfold headAdmits at h
  cases hp : p.node with
  | app label ps sort =>
    cases label with
    | freezer f => simp [hp] at h
    | const l =>
      cases hs : s.node with
      | app label' ss sort' =>
        cases label' with
        | freezer f => rfl
        | const l' =>
          have hl : l ≠ l' := by simpa [hp, hs] using h
          simp [hl]
      | token => rfl
      | _ => simp [hp, hs] at h
  | token => rfl
  | _ => simp [hp] at h

/-- Matching is a step at the node, with the children of the pattern left to the matcher of their size. -/
theorem matchFrom_eq_node {n k : Nat} (hn : s.size = n + 1) (hk : p.size = k + 1) (st : MatchState) :
    matchFrom p s st = node (upTo (below n) k) (below n) p s st := by
  rw [matchFrom, hn, below]
  dsimp only
  rw [hk, upTo]

theorem matchFrom_of_not_headAdmits (h : p.headAdmits s = false) (st : MatchState) :
    matchFrom p s st = pure [] := by
  obtain ⟨n, hn⟩ := Nat.exists_eq_add_of_le' s.size_pos
  obtain ⟨k, hk⟩ := Nat.exists_eq_add_of_le' p.size_pos
  rw [matchFrom_eq_node hn hk, node_of_not_headAdmits h]

end Matching

/-! ### Candidates -/

/-- Branches of different patterns. -/
def PatternsDiffer (bs : List Branch) : Prop := bs.Pairwise fun b c => (b.1 == c.1) = false

namespace Matching

theorem candidateBranches_eq_filter (h : PatternsDiffer bs) (s : Term) :
    candidateBranches s bs = bs.filter fun b => b.1.headAdmits s := by
  induction bs with
  | nil => rfl
  | cons b bs ih =>
    obtain ⟨hb, hbs⟩ := List.pairwise_cons.mp h
    have hlast : (bs.any fun c => c.1 == b.1) = false := by
      rw [List.any_eq_false]
      intro c hc heq
      rw [BEq.comm, hb c hc] at heq
      cases heq
    rw [candidateBranches, hlast, ih hbs, List.filter_cons]
    simp

theorem flatMapM_filter {α β : Type} {f : α → Build (List β)} {keep : α → Bool} {l : List α}
    (h : ∀ a ∈ l, keep a = false → f a = pure []) : (l.filter keep).flatMapM f = l.flatMapM f := by
  induction l with
  | nil => rfl
  | cons a l ih =>
    obtain ⟨ha, hl⟩ := List.forall_mem_cons.mp h
    cases hk : keep a with
    | true => rw [List.filter_cons_of_pos hk, List.flatMapM_cons, List.flatMapM_cons, ih hl]
    | false =>
      rw [List.filter_cons_of_neg (by simp [hk]), List.flatMapM_cons, ha hk, ih hl]
      simp

/-- Try a branch: its pattern is matched for the rules that it shares with the state, if there are any. -/
def tryBranch (s : Term) (st : MatchState) (b : Branch) : Build (List MatchState) :=
  let live := match st.rules with
    | some live => live.inter b.2
    | none => b.2
  if live.isEmpty then return [] else matchFrom b.1 s { st with rules := some live }

theorem tryBranch_of_not_headAdmits {b : Branch} (h : b.1.headAdmits s = false) :
    tryBranch s st b = pure [] := by
  unfold tryBranch
  simp only [matchFrom_of_not_headAdmits h, ite_self]

/-- A disjunction is matched by trying its candidates. -/
theorem matchFrom_eq_tryCandidates (ht : t.node = .disjunction bs) (s : Term) (st : MatchState) :
    matchFrom t s st = (candidateBranches s bs).flatMapM (tryBranch s st) := by
  obtain ⟨n, hn⟩ := Nat.exists_eq_add_of_le' s.size_pos
  obtain ⟨k, hk⟩ := Nat.exists_eq_add_of_le' t.size_pos
  have hdisj : t.hasDisjunction := by
    rw [Term.hasDisjunction, Term.anyNode_eq]
    simp [Term.isDisjunction, ht]
  have hsize : ∀ b ∈ bs, b.1.size ≤ k := fun b hb => by
    have hlt : b.1.size < t.size :=
      Term.size_child (by rw [Term.children, ht]; exact List.mem_map_of_mem hb)
    omega
  rw [matchFrom_eq_node hn hk]
  unfold node
  rw [if_neg (by simp [hdisj]), ht]
  refine flatMapM_congr fun b hb => ?_
  unfold tryBranch
  dsimp only
  exact upTo_eq_matchFrom (hsize b (mem_candidateBranches hb)) (Nat.le_of_eq hn) _ ▸ rfl

/-- The branches that the tables of a disjunction with different patterns list for a subject stand in the
order of the branches, none of them twice; the others do not match the subject, in no state; and trying the
listed ones gives the states that trying every branch gives, in the same order. -/
theorem matchFrom_disjunction (ht : t.node = .disjunction bs) (h : PatternsDiffer bs) (s : Term) :
    (listedBranches s bs).Sublist bs ∧ PatternsDiffer (listedBranches s bs) ∧
      (∀ b ∈ bs, b ∉ listedBranches s bs → ∀ st, matchFrom b.1 s st = pure []) ∧
      ∀ st, matchFrom t s st = (listedBranches s bs).flatMapM (tryBranch s st) ∧
        matchFrom t s st = bs.flatMapM (tryBranch s st) := by
  have hfilter : listedBranches s bs = bs.filter fun b => b.1.headAdmits s :=
    (Term.listedBranches_eq s bs).trans (candidateBranches_eq_filter h s)
  have hsub : (listedBranches s bs).Sublist bs := hfilter ▸ List.filter_sublist
  have hlisted (st : MatchState) : matchFrom t s st = (listedBranches s bs).flatMapM (tryBranch s st) :=
    Term.listedBranches_eq s bs ▸ matchFrom_eq_tryCandidates ht s st
  refine ⟨hsub, h.sublist hsub, fun b hb hout => ?_, fun st => ⟨hlisted st, ?_⟩⟩
  · rw [hfilter, List.mem_filter, not_and, Bool.not_eq_true] at hout
    exact matchFrom_of_not_headAdmits (hout hb)
  · rw [hlisted, hfilter]
    exact flatMapM_filter fun b _ hb => tryBranch_of_not_headAdmits hb

/-- A call with any argument, a token, a variable and the call of another label. -/
def fourBranches : List Branch :=
  [(⟨{}, .app (.const "f") [⟨{}, .var { name := "X", sort := .k }⟩] .k⟩, .singleton 0),
    (⟨{}, .token .int "1"⟩, .singleton 1), (⟨{}, .var { name := "Y", sort := .k }⟩, .singleton 2),
    (⟨{}, .app (.const "g") [] .k⟩, .singleton 3)]

theorem matchFrom_fourBranches :
    PatternsDiffer fourBranches ∧
      (listedBranches ⟨{}, .token .int "1"⟩ fourBranches).map (·.2.toList) = [[1], [2]] ∧
      matchFrom ⟨{}, .disjunction fourBranches⟩ ⟨{}, .token .int "1"⟩ {} =
        fourBranches.flatMapM (tryBranch ⟨{}, .token .int "1"⟩ {}) := by
  have h : PatternsDiffer fourBranches := by
    unfold PatternsDiffer
    decide
  exact ⟨h, by decide, ((matchFrom_disjunction rfl h _).2.2.2 {}).2⟩

end Matching

/-! ### Merged rules -/

/-- The disjunctions that are made where merged rules have different shapes have different patterns. -/
theorem Merge.patternsDiffer_alternatives (items : List Merge.Item) :
    Returns (fun t => ∃ bs, t.node = .disjunction bs ∧ PatternsDiffer bs) (Merge.alternatives items) := by
  refine (Term.returns_new _).mono fun t ht => ⟨_, ht, ?_⟩
  refine List.foldlRecOn items _ .nil fun bs hbs item _ => ?_
  unfold PatternsDiffer at hbs ⊢
  split
  · refine List.pairwise_map.mpr (hbs.imp fun h => ?_)
    split <;> split <;> exact h
  · rename_i hnew
    rw [Bool.not_eq_true, List.any_eq_false] at hnew
    exact List.pairwise_append.mpr ⟨hbs, List.pairwise_singleton .., fun b hb c hc => by
      rw [List.mem_singleton.mp hc]
      simpa using hnew b hb⟩

end RuleCompiler
