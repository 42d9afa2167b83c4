import RuleCompiler.Proofs.Matching.Congruence

/-! # Patterns that are compared

Where every part of a ground pattern is compared with a part of the subject, so is the pattern. Patterns
and subjects that differ in nothing but the sort of an application or the multiplicity of a cell are not
equal but would match part by part, so labels have to carry one sort. -/

namespace RuleCompiler

namespace Term
variable {t u : Term}

theorem equal_iff_beq {ts us : List Term} : Equal ts us ↔ ts == us := by
  induction ts generalizing us with
  | nil => cases us <;> simp [Equal]
  | cons t ts ih =>
    cases us with
    | nil => simp [Equal]
    | cons u us =>
      rw [List.cons_beq_cons, Bool.and_eq_true, ← ih]
      exact List.forall₂_cons

theorem beq_iff_alike {m n : Node Term} (ht : t.node = m) (hu : u.node = n) :
    t == u ↔ Node.Alike (fun t u => t == u) m n :=
  ht ▸ hu ▸ ⟨alike_of_beq, beq_of_alike⟩

theorem beq_eq_false {m n : Node Term} (ht : t.node = m) (hu : u.node = n)
    (h : ¬Node.Alike (fun t u => t == u) m n) : (t == u) = false :=
  Bool.eq_false_iff.mpr fun hbeq => h ((beq_iff_alike ht hu).mp hbeq)

theorem beq_const_iff {l l' : String} {as bs : List Term} {k k' : SortName}
    (ht : t.node = .app (.const l) as k) (hu : u.node = .app (.const l') bs k') :
    t == u ↔ l = l' ∧ k = k' ∧ as == bs := by
  rw [beq_iff_alike ht hu, ← equal_iff_beq]
  constructor
  · intro h
    cases h with
    | app h => exact ⟨rfl, rfl, h⟩
  · rintro ⟨rfl, rfl, h⟩
    exact .app h

theorem beq_freezer_iff {f g : Term} {as bs : List Term} {k k' : SortName}
    (ht : t.node = .app (.freezer f) as k) (hu : u.node = .app (.freezer g) bs k') :
    t == u ↔ k = k' ∧ f == g ∧ as == bs := by
  rw [beq_iff_alike ht hu, ← equal_iff_beq]
  constructor
  · intro h
    cases h with
    | freezer hf h => exact ⟨rfl, hf, h⟩
  · rintro ⟨rfl, hf, h⟩
    exact .freezer hf h

theorem beq_seq_iff {as bs : List Term} {v w : Option Var} (ht : t.node = .seq as v)
    (hu : u.node = .seq bs w) : t == u ↔ v = w ∧ as == bs := by
  rw [beq_iff_alike ht hu, ← equal_iff_beq]
  constructor
  · intro h
    cases h with
    | seq h => exact ⟨rfl, h⟩
  · rintro ⟨rfl, h⟩
    exact .seq h

end Term

namespace Matching

/-- Only compares with the pattern. -/
def comparing : Matcher := fun p s st => pure (if p == s then [st] else [])

theorem pairs_comparing (st : MatchState) : ∀ {ps ss : List Term}, ps.length = ss.length →
    pairs comparing (ps.zip ss) [st] = pure (if ps == ss then [st] else [])
  | [], [], _ => rfl
  | p :: ps, s :: ss, h => by
    have ih := pairs_comparing st (Nat.succ.inj h)
    rw [List.zip_cons_cons, pairs.eq_def, List.cons_beq_cons]
    dsimp only
    rw [List.flatMapM_cons, List.flatMapM_nil, comparing]
    simp only [pure_bind, List.append_nil]
    cases p == s with
    | true => simpa using ih
    | false => cases ps.zip ss <;> rfl

theorem sequence_comparing {frame : Option Var} (st : MatchState) : ∀ {ps ss : List Term},
    (∀ p ∈ ps, segment? p = none) →
      sequence comparing none frame ps ss st = pure (if ps == ss && frame.isNone then [st] else [])
  | [], ss, _ => by
    rw [sequence.eq_def]
    cases ss <;> rfl
  | p :: ps, ss, h => by
    obtain ⟨hp, hps⟩ := List.forall_mem_cons.mp h
    rw [sequence.eq_def]
    dsimp only
    rw [hp]
    cases ss with
    | nil => rfl
    | cons s ss =>
      have ih : sequence comparing none frame ps ss st = _ := sequence_comparing st hps
      rw [List.cons_beq_cons]
      dsimp only
      rw [comparing, pure_bind]
      cases p == s with
      | true =>
        rw [if_pos rfl, List.flatMapM_cons, List.flatMapM_nil]
        simpa using ih
      | false => rfl

/-! ### Nodes -/

section Node
variable {S : Term → Prop} {go deeper : Matcher} {L : Labelling} {t u s : Term} {args : List Term}
  {k : SortName}

/-- Arguments that are only compared. -/
theorem pairs_compared {ps ss : List Term} (h : List.Forall₂ (Agree S go comparing) ps args)
    (hss : ∀ c ∈ ss, S c) (st : MatchState) :
    (if ps.length = ss.length then pairs go (ps.zip ss) [st] else pure []) =
      pure (if args == ss then [st] else []) := by
  split
  · rename_i hlen
    rw [pairs_congr (aligned_zip h hss), pairs_comparing st (h.length_eq ▸ hlen)]
  · rename_i hlen
    rw [if_neg fun heq => hlen (h.length_eq.trans (Term.equal_iff_beq.mpr heq).length_eq)]

variable (hS : ∀ c ∈ s.children, S c) (ht : isCompared t = false)
  (h : NodesAgree S go comparing t.node u.node)
include hS ht h

/-- An application is compared argument by argument if its label has one sort. -/
theorem node_const_comparing {l : String} (hu : u.node = .app (.const l) args k) (hfits : L.fits u.node)
    (hsubject : L.fits s.node) (st : MatchState) :
    node go deeper t s st = pure (if u == s then [st] else []) := by
  rw [hu] at h hfits
  generalize hm : t.node = m at h
  rw [isCompared] at ht
  rw [node.eq_def, if_neg (by rw [ht]; exact Bool.false_ne_true), hm]
  cases h with
  | leaf hn => cases hn
  | @app _ ps _ _ _ h =>
    cases hsn : s.node with
    | app label ss k' =>
      cases label with
      | const l' =>
        rw [Term.children, hsn] at hS
        rw [hsn] at hsubject
        have hbeq := Term.beq_const_iff hu hsn
        dsimp only
        by_cases hl : l = l'
        · have hk : k = k' := by
            rw [of_decide_eq_true hfits, of_decide_eq_true hsubject, hl]
          simp only [hl, hk, true_and] at hbeq
          simp only [hl, hbeq, decide_true, Bool.true_and, decide_eq_true_eq]
          exact pairs_compared h hS st
        · simp [hl, hbeq]
      | freezer => rw [Term.beq_eq_false hu hsn (by rintro ⟨⟩)]; rfl
    | _ => rw [Term.beq_eq_false hu hsn (by rintro ⟨⟩)]; rfl

/-- A frozen application is compared argument by argument if it has the sort of all of them. -/
theorem node_freezer_comparing {f : Term} (hu : u.node = .app (.freezer f) args k) (hfits : L.fits u.node)
    (hsubject : L.fits s.node) (st : MatchState) :
    node go deeper t s st = pure (if u == s then [st] else []) := by
  rw [hu] at h hfits
  generalize hm : t.node = m at h
  rw [isCompared] at ht
  rw [node.eq_def, if_neg (by rw [ht]; exact Bool.false_ne_true), hm]
  cases h with
  | leaf hn => cases hn
  | @freezer _ _ ps _ _ _ hf h =>
    cases hsn : s.node with
    | app label ss k' =>
      cases label with
      | freezer g =>
        rw [Term.children, hsn] at hS
        obtain ⟨hg, hss⟩ := List.forall_mem_cons.mp hS
        rw [hsn] at hsubject
        have hk : k = k' := (of_decide_eq_true hfits).trans (of_decide_eq_true hsubject).symm
        have hbeq := Term.beq_freezer_iff hu hsn
        simp only [hk, true_and] at hbeq
        have hargs := pairs_compared h hss st
        dsimp only
        rw [hf g hg, comparing, pure_bind]
        by_cases hfg : f == g
        · simp only [hfg, true_and] at hbeq
          rw [if_pos hfg, List.flatMapM_cons, List.flatMapM_nil, if_congr hbeq rfl rfl, ← hargs]
          simp
        · simp [hfg, hbeq]
      | const => rw [Term.beq_eq_false hu hsn (by rintro ⟨⟩)]; rfl
    | _ => rw [Term.beq_eq_false hu hsn (by rintro ⟨⟩)]; rfl

/-- A sequence of items is compared item by item, but for a single one. -/
theorem node_seq_comparing (hs : S s) {items : List Term} (hu : u.node = .seq items none)
    (hlen : items.length ≠ 1) (hitems : ∀ c ∈ items, segment? c = none) (st : MatchState) :
    node go deeper t s st = pure (if u == s then [st] else []) := by
  have hone : (items == [s]) = false := Bool.eq_false_iff.mpr fun h =>
    hlen (Term.equal_iff_beq.mpr h).length_eq
  have hbeq : (u == s) = (items == (sequenceView s).1 && (sequenceView s).2.isNone) := by
    unfold sequenceView
    split
    · rename_i ss frame hsn
      rw [Bool.eq_iff_iff, Term.beq_seq_iff hu hsn, Bool.and_eq_true, Option.isNone_iff_eq_none]
      exact and_comm.trans (and_congr_right' eq_comm)
    · rename_i hsn
      rw [Term.beq_eq_false hu hsn (by rintro ⟨⟩)]
      split
      · exact (Bool.and_false _).symm
      · rw [hone, Bool.false_and]
    · rename_i hseq _
      rw [hone, Bool.false_and]
      refine Term.beq_eq_false hu rfl fun h => ?_
      generalize hsn : s.node = m at h
      cases h
      exact hseq _ _ hsn
  rw [hu] at h
  generalize hm : t.node = m at h
  cases h with
  | leaf hn => cases hn
  | seq h =>
    rw [isCompared] at ht
    rw [node.eq_def, if_neg (by rw [ht]; exact Bool.false_ne_true), hm]
    dsimp only
    rw [sequence_congr h (sequenceView_all hS hs), sequence_comparing st hitems, hbeq]

end Node

end Matching

end RuleCompiler
