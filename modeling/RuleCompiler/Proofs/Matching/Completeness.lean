import RuleCompiler.Proofs.Matching.Complete.Level
import RuleCompiler.Proofs.Matching.Soundness

/-! # Completeness of matching

Bindings that make a pattern the subject, part by part, are among those of the matches. -/

namespace RuleCompiler.Matching

open Build (Always)

variable {σ : Substitution} {p s : Term}

theorem upTo_finds (hσ : HoldsData σ) {deeper : Matcher} {m : Nat}
    (hdeeper : ∀ {q t : Term}, q.IsMatchable → t.IsData → t.size < m → FindsAt σ deeper q t) {n : Nat} :
    ∀ {p s : Term}, p.size ≤ n → p.IsMatchable → s.IsData → p.isVar ∨ s.size ≤ m →
      FindsAt σ (upTo deeper n) p s := by
  induction n with
  | zero =>
    intro p s hn
    have := p.size_pos
    omega
  | succ n ih =>
    intro p s hn hp hs hm st hst
    rw [upTo]
    by_cases hground : p.isGround
    · exact node_found_ground (hp.isCompared hground) hst
    by_cases hvar : p.isVar
    · obtain ⟨v, hv⟩ := Term.exists_var hvar
      exact node_found_var hv hp hs hst
    · have hm := hm.resolve_left hvar
      refine node_found hσ hp hs (Bool.not_eq_true _ ▸ hground) ⟨fun hc hcm ht hct => ?_,
        fun hq ht hts => ?_⟩ hst (Bool.not_eq_true _ ▸ hvar)
      · exact ih (by omega) hcm ht (hct.imp_right fun h => Nat.le_trans h hm)
      · exact hdeeper hq ht (Nat.lt_of_lt_of_le hts hm)

theorem below_finds (hσ : HoldsData σ) {n : Nat} :
    ∀ {p s : Term}, p.IsMatchable → s.IsData → s.size ≤ n → FindsAt σ (below n) p s := by
  induction n with
  | zero =>
    intro p s _ _ hn
    have := s.size_pos
    omega
  | succ n ih =>
    intro p s hp hs hn
    exact upTo_finds hσ (fun hq ht hlt => ih hq ht (Nat.lt_succ_iff.mp hlt)) (Nat.le_refl _) hp hs
      (.inr hn)

/-- Bindings under which a pattern lands on data are those of one of the matches, which binds all
variables of the pattern. -/
theorem matchAll_complete (hσ : HoldsData σ) (hp : p.IsMatchable) (hs : s.IsData) (h : Lands σ p s) :
    Always (matchAll p s) fun σs =>
      ∃ τ ∈ σs, (∀ v ∈ p.vars, (τ.get? v).isSome) ∧ Follows σ τ := by
  have hempty (v : Var) : ({} : Substitution).get? v = none := rfl
  have hst : Stored {} := fun v t hv => by rw [hempty] at hv; cases hv
  refine (below_finds hσ hp hs (Nat.le_refl _) {} hst).bind fun sts hsts => .pure ?_
  obtain ⟨st, hmem, hreached⟩ := hsts.reached (fun v t hv => by rw [hempty] at hv; cases hv) h
  exact ⟨st.substitution, List.mem_map_of_mem hmem, hreached.binds, hreached.follows⟩

namespace Machine

def item : Var := { name := "X", sort := .kItem }
def value : Var := { name := "Y", sort := .kItem }
def items : Var := { name := "L", sort := .list }
def entries : Var := { name := "M", sort := .map }
def elements : Var := { name := "S", sort := .set }
def others : Var := { name := "Rest", sort := .bag }

def unknown (v : Var) : Term := .canonical (.var v)
def listTerm (front base : List Term) : Term := .canonical (.list .list front base [])
def mapTerm (es : List (Term × Term)) (base : List Term) : Term := .canonical (.map .map es base)
def setTerm (es base : List Term) : Term := .canonical (.set .set es base)
def cell (label : String) (content : Term) : Cell := { label, multiplicity := .one, content }
def cellsTerm (cs : List Cell) (frames : List Var) : Term := .canonical (.cells cs frames)

def a : Term := .constant "a"
def b : Term := .constant "b"

/-- A configuration of which only some contents are known. -/
def opened : Term :=
  cellsTerm [cell "env" (mapTerm [(unknown item, unknown value)] [unknown entries]),
    cell "k" (listTerm [unknown item] [unknown items]),
    cell "seen" (setTerm [unknown value] [unknown elements])] [others]

/-- A configuration with two keys, of which the second one is on top of the list. -/
def closed : Term :=
  cellsTerm [cell "env" (mapTerm [(a, b), (b, a)] []), cell "k" (listTerm [b, b] []), cell "out" b,
    cell "seen" (setTerm [a, b] [])] []

/-- What the unknown contents are. -/
def contents : Substitution :=
  ⟨[(item, b), (value, a), (items, listTerm [b] []), (entries, mapTerm [(a, b)] []),
    (elements, setTerm [b] []), (others, cellsTerm [cell "out" b] [])]⟩

end Machine

open Machine in
theorem matchAll_configuration : Lands contents opened closed ∧ (matchAll opened closed).Always fun σs =>
    ∃ τ ∈ σs, (∀ v ∈ opened.vars, (τ.get? v).isSome) ∧ Follows contents τ := by
  have hnames {v : Var} {t : Term} (hv : contents.get? v = some t) (hsort : t.sort.subsortOf v.sort) :
      Names contents v t := ⟨t, hv, BEq.refl t, hsort⟩
  have hvar {v : Var} {t : Term} (hv : contents.get? v = some t) (hsort : t.sort.subsortOf v.sort) :
      Lands contents (unknown v) t := .var rfl (hnames hv hsort)
  have hitem : Lands contents (unknown item) b := hvar rfl rfl
  have hvalue : Lands contents (unknown value) a := hvar rfl rfl
  have hitems : Lands contents (unknown items) (listTerm [b] []) := hvar rfl rfl
  have hentries : Lands contents (unknown entries) (mapTerm [(a, b)] []) := hvar rfl rfl
  have helements : Lands contents (unknown elements) (setTerm [b] []) := hvar rfl rfl
  have hothers : Names contents others (cellsTerm [cell "out" b] []) := hnames rfl rfl
  have henv : Lands contents (mapTerm [(unknown item, unknown value)] [unknown entries])
      (mapTerm [(a, b), (b, a)] []) :=
    @Lands.map _ _ _ _ _ _ [(b, a)] _ _ _ rfl rfl rfl (.cons hitem .nil) (.cons hvalue .nil)
      (.cons hentries .nil) (.cons rfl .nil) (List.Perm.swap ..)
  have hk : Lands contents (listTerm [unknown item] [unknown items]) (listTerm [b, b] []) :=
    .list rfl rfl rfl (.cons hitem .nil) (.cons hitems .nil) (.cons rfl .nil) .nil
  have hseen : Lands contents (setTerm [unknown value] [unknown elements]) (setTerm [a, b] []) :=
    .set rfl rfl rfl (.cons hvalue .nil) (.cons helements .nil) (.cons rfl .nil) (.refl _)
  have hopened : Lands contents opened closed := by
    refine @Lands.cells _ _ _ _ _ [cell "env" _, cell "k" _, cell "seen" _] _ _ _ rfl rfl rfl ?_
      (.cons henv (.cons hk (.cons hseen .nil))) (.cons hothers .nil) (.cons rfl .nil) ?_
    · exact .cons ⟨rfl, rfl⟩ (.cons ⟨rfl, rfl⟩ (.cons ⟨rfl, rfl⟩ .nil))
    · exact ((List.Perm.swap _ _ []).cons _).cons _
  exact ⟨hopened, matchAll_complete (holdsData_of_bindings (by decide)) (by decide) (by decide)
    hopened⟩

/-! ### An instance that does not match -/

/-- A list of two unknown lists, and the first of them put for the second one empty. -/
def twoLists : Build (Term × Substitution) := do
  let first : Var := { name := "L1", sort := .list }
  let second : Var := { name := "L2", sort := .list }
  let pattern ← (← ListParts.concat (← ListParts.concat { ops := .list } (← Term.var first))
    (← Term.var second)).build
  let empty ← ListParts.build { ops := .list }
  return (pattern, ⟨[(first, .constant "f" .list), (second, empty)]⟩)

set_option maxRecDepth 100000

/-- A list that is not known to be one is an instance of a list of unknown parts, but no match. -/
theorem exists_instance_not_match : ∃ (p s t : Term) (σ : Substitution),
    twoLists.result? 1 = some (p, σ) ∧ s.isGround ∧
      (∀ v ∈ p.vars, ∃ u, σ.get? v = some u ∧ u.isGround ∧ u.sort.subsortOf v.sort) ∧
      (σ.apply p).result? 100 = some t ∧ t == s ∧ (matchAll p s).result? 200 = some [] := by
  have h : (twoLists.result? 1).any (fun e =>
      e.1.vars.all (fun v => (e.2.get? v).any fun u => u.isGround && u.sort.subsortOf v.sort) &&
      (((e.2.apply e.1).result? 100).any (· == .constant "f" .list)) &&
      ((matchAll e.1 (.constant "f" .list)).result? 200).any (·.isEmpty)) = true := by
    decide
  obtain ⟨⟨p, σ⟩, he, h⟩ := (Option.any_eq_true ..).mp h
  simp only [Bool.and_eq_true] at h
  obtain ⟨⟨hbound, happly⟩, hmatch⟩ := h
  obtain ⟨t, ht, hts⟩ := (Option.any_eq_true ..).mp happly
  obtain ⟨σs, hσs, hnil⟩ := (Option.any_eq_true ..).mp hmatch
  refine ⟨p, .constant "f" .list, t, σ, he, by decide, fun v hv => ?_, ht, hts, ?_⟩
  · obtain ⟨u, hu, h⟩ := (Option.any_eq_true ..).mp (List.all_eq_true.mp hbound v hv)
    exact ⟨u, hu, (Bool.and_eq_true _ _).mp h⟩
  · rw [hσs, List.isEmpty_iff.mp hnil]

end RuleCompiler.Matching
