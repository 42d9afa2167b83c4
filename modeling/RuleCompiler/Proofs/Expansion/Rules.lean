import RuleCompiler.Proofs.Expansion.Rounds
import RuleCompiler.Proofs.Formula.Numbers
import RuleCompiler.Proofs.RewriteLifting

/-! # Rules with their terms expanded

Expanding a rule gives the rule of its normal forms, or reports that some term has none within the limit. A rule
counts as unchanged where its terms are the same nodes as before: among nodes that are numbered consistently, these
say the same. -/

namespace RuleCompiler

open Build (Always From Gives)
open Counting (Runs)
open MonadAttach (CanReturn)

/-! ### Nodes old and new -/

namespace Term
variable {n : Nat} {l ts : List Term} {t u : Term}

theorem not_touchesEditable_iff : t.touchesEditable = false ↔ ∀ u ∈ t.nodes, u.isEditable = false := by
  induction t using Term.induction with
  | h t ih =>
    rw [touchesEditable_eq, Bool.or_eq_false_iff, nodes_eq, List.forall_mem_cons, List.any_eq_false]
    refine and_congr_right fun _ => ⟨fun h u hu => ?_, fun h c hc => ?_⟩
    · obtain ⟨c, hc, hu⟩ := List.mem_flatMap.mp hu
      exact (ih c hc).mp (by simpa using h c hc) u hu
    · rw [Bool.not_eq_true]
      exact (ih c hc).mpr fun u hu => h u (List.mem_flatMap.mpr ⟨c, hc, hu⟩)

/-- Nothing in the term is editable, and each node is canonical, listed, or made from the number `n` on. -/
def IsDrawn (n : Nat) (l : List Term) (t : Term) : Prop :=
  ∀ u ∈ t.nodes, u.isEditable = false ∧ (u.isCanonical ∨ u ∈ l ∨ n ≤ u.mark.id)

theorem isDrawn_iff : IsDrawn n l t ↔
    (t.isEditable = false ∧ (t.isCanonical ∨ t ∈ l ∨ n ≤ t.mark.id)) ∧ ∀ c ∈ t.children, IsDrawn n l c := by
  rw [IsDrawn, nodes_eq, List.forall_mem_cons, List.forall_mem_flatMap]
  rfl

theorem IsDrawn.not_touchesEditable (h : IsDrawn n l t) : t.touchesEditable = false :=
  not_touchesEditable_iff.mpr fun u hu => (h u hu).1

theorem isDrawn_of_mem (ht : t ∈ ts) (h : t.touchesEditable = false) : IsDrawn n (ts.flatMap nodes) t :=
  fun u hu => ⟨not_touchesEditable_iff.mp h u hu, .inr (.inl (List.mem_flatMap.mpr ⟨t, ht, hu⟩))⟩

theorem spreads_isDrawn (n : Nat) (l : List Term) : Spreads n (IsDrawn n l) where
  child h hc u hu := h u (nodes_child hc hu)
  new hk hc := by
    unfold new
    split
    · rename_i hm
      exact .pure (isDrawn_iff.mpr ⟨⟨rfl, .inl hm⟩, hc⟩)
    · intro u k' hrun
      cases hrun
      exact ⟨Nat.le_succ _, isDrawn_iff.mpr ⟨⟨rfl, .inr (.inr hk)⟩, hc⟩⟩
  edited _ ht hedit _ := by
    rw [(isDrawn_iff.mp ht).1.1] at hedit
    cases hedit

/-- A node that has become the same one says what it did. -/
theorem AreHeap.beq_of_same (hheap : AreHeap n ts) (ht : t ∈ ts) (hu : IsDrawn n (ts.flatMap nodes) u)
    (h : t.same u) : t == u := by
  have hmem : t ∈ ts.flatMap nodes := List.mem_flatMap.mpr ⟨t, ht, t.self_mem_nodes⟩
  rw [same] at h
  split at h
  · exact ((Bool.and_eq_true _ _).mp h).2
  · rename_i hc
    obtain ⟨hlt, heq⟩ := hheap t hmem (Bool.eq_false_iff.mpr hc)
    simp only [Bool.and_eq_true, Bool.not_eq_true', beq_iff_eq] at h
    rcases (isDrawn_iff.mp hu).1.2 with huc | hul | hle
    · rw [h.1] at huc
      cases huc
    · exact BEq.symm (heq u hul h.1 h.2.symm)
    · omega

theorem AreHeap.equal_of_allSame (hheap : AreHeap n ts) :
    ∀ {ts' us : List Term}, ts' ⊆ ts → ts'.length = us.length → (∀ u ∈ us, IsDrawn n (ts.flatMap nodes) u) →
      allSame ts' us → List.Forall₂ (fun t u : Term => t == u) ts' us
  | [], [], _, _, _, _ => .nil
  | t :: ts', u :: us, hts, hlen, hus, h => by
    obtain ⟨hu, hus⟩ := List.forall_mem_cons.mp hus
    obtain ⟨ht, hts⟩ := List.cons_subset.mp hts
    rw [allSame, List.zip_cons_cons, List.all_cons, Bool.and_eq_true] at h
    exact .cons (hheap.beq_of_same ht hu h.1) (hheap.equal_of_allSame hts (Nat.succ.inj hlen) hus h.2)

end Term

/-! ### Putting rules together -/

theorem Build.Gives.from {α : Type} {n : Nat} {p : Nat → α → Prop} {x : Build α} (hx : Gives n p x) : From n p x := by
  intro a k hrun
  obtain ⟨b, k', hrun', hk, hp⟩ := hx
  cases hrun.symm.trans hrun'
  exact ⟨hk, hp⟩

/-- Each side of a term can be made. -/
theorem Side.gives_walk_true (s : Side) (t : Term) : ∀ n : Nat, Gives n (fun _ _ => True) (s.walk t) := by
  induction t using Term.induction with
  | h t ih =>
    intro n
    by_cases hrewrite : ∃ l r, t.node = .rewrite l r
    · obtain ⟨l, r, hnode⟩ := hrewrite
      rw [walk_of_rewrite hnode]
      exact ih _ (s.select_mem hnode) n
    · have hr : t.isRewrite = false := by
        unfold Term.isRewrite
        split
        · rename_i l r hnode
          exact absurd ⟨l, r, hnode⟩ hrewrite
        · rfl
      let count (_ : Term) : Nat := 0
      have hupdate : Runs n (t.update (t.children.map s.walk) pure) (t.children.map count).sum fun _ => True := by
        refine Term.spreads_true.update (Nat.zero_le n) trivial (fun c hc k _ => ⟨rfl, ih c hc k⟩) ?_
        intro v _ u hu _ k _
        refine Counting.pure ⟨trivial, fun _ _ _ => ?_⟩
        rw [Term.isJoinable, hu]
      rw [walk_of_not_rewrite hr]
      exact hupdate.2

namespace Rule
variable {n : Nat} {kind : RuleKind} {attributes : Attributes} {body : Term} {requires ensures : List Term}
  {equations : List (Term × Term)}

section Assemble
variable (hfrozen : ∀ t ∈ body :: (requires ++ ensures), t.touchesEditable = false)
include hfrozen

/-- Terms that are not editable go into a rule as they are. -/
theorem assemble_eq : assemble kind attributes body requires ensures equations = do
    let left ← body.leftSide
    let right ← body.rightSide
    let lookups ← (← Formula.truth.addEquations equations).simplify
    return { kind, attributes, body, requires, ensures, equations, left, right, lookups } := by
  obtain ⟨hbody, hconditions⟩ := List.forall_mem_cons.mp hfrozen
  unfold assemble
  rw [freeze_of_not_touchesEditable hbody, pure_bind,
    mapM_freeze fun c hc => hconditions c (List.mem_append_left _ hc), pure_bind,
    mapM_freeze fun c hc => hconditions c (List.mem_append_right _ hc), pure_bind]

theorem from_assemble : From n (fun _ r => r.kind = kind ∧
    r.terms = body :: (requires ++ (ensures ++ equations.flatMap fun e => [e.1, e.2])))
    (assemble kind attributes body requires ensures equations) := by
  rw [assemble_eq hfrozen]
  refine (Side.left.gives_walk_true body n).from.bind fun k left _ _ => ?_
  refine (Side.right.gives_walk_true body k).from.bind fun k right _ _ => ?_
  refine ((Formula.raises_addEquations _ _).grows k).bind fun k f _ _ => ?_
  exact (f.raises_simplify.grows k).bind fun k lookups _ _ => .pure ⟨rfl, rfl⟩

/-- Without lookups there is always a rule. -/
theorem gives_assemble_nil : Gives n (fun _ _ => True) (assemble kind attributes body requires ensures []) := by
  rw [assemble_eq hfrozen]
  refine (Side.left.gives_walk_true body n).bind fun k left _ _ => ?_
  refine (Side.right.gives_walk_true body k).bind fun k right _ _ => ?_
  have htruth : Gives k (fun _ _ => True) (do (← Formula.truth.addEquations []).simplify) :=
    ⟨_, k, rfl, Nat.le_refl k, trivial⟩
  rw [← bind_assoc]
  exact htruth.bind fun k lookups _ _ => .pure trivial

end Assemble

end Rule

namespace Expander
variable {e : Expander} {α β : Type} {n : Nat} {S : Term → Except Nat Term → Prop}

/-! ### Results that are noted -/

/-- What stands for a term with the result: the term itself where it was given up. -/
def keep (t : Term) : Except Nat Term → Term
  | .ok u => u
  | .error _ => t

/-- The expansions after which a term was last given up. -/
def note (last : Option Nat) : Except Nat Term → Option Nat
  | .ok _ => last
  | .error steps => some steps

/-- What stands for terms with results that are fit. -/
inductive Expanded (S : Term → Except Nat Term → Prop) : List Term → List (Except Nat Term) → List Term → Prop where
  | nil : Expanded S [] [] []
  | cons {t : Term} {r : Except Nat Term} {ts us : List Term} {rs : List (Except Nat Term)} (h : S t r)
      (hrest : Expanded S ts rs us) : Expanded S (t :: ts) (r :: rs) (keep t r :: us)

namespace Expanded
variable {ts ts' us us' : List Term} {rs rs' : List (Except Nat Term)} {P : Term → Prop}

theorem append (h : Expanded S ts rs us) (h' : Expanded S ts' rs' us') :
    Expanded S (ts ++ ts') (rs ++ rs') (us ++ us') := by
  induction h with
  | nil => exact h'
  | cons hr _ ih => exact .cons hr ih

theorem results (h : Expanded S ts rs us) : List.Forall₂ S ts rs := by
  induction h with
  | nil => exact .nil
  | cons hr _ ih => exact .cons hr ih

theorem length_eq (h : Expanded S ts rs us) : ts.length = us.length := by
  induction h with
  | nil => rfl
  | cons _ _ ih => rw [List.length_cons, List.length_cons, ih]

theorem forall_mem (h : Expanded S ts rs us) (hS : ∀ t r, S t r → ∀ u, r = .ok u → P u) (hts : ∀ t ∈ ts, P t) :
    ∀ u ∈ us, P u := by
  induction h with
  | nil => exact List.forall_mem_nil _
  | @cons t r ts us rs hr _ ih =>
    obtain ⟨ht, hts⟩ := List.forall_mem_cons.mp hts
    refine List.forall_mem_cons.mpr ⟨?_, ih hts⟩
    cases r with
    | ok u => exact hS t _ hr u rfl
    | error => exact ht

theorem foldl_note_some (steps : Nat) : ∀ rs : List (Except Nat Term), (rs.foldl note (some steps)).isSome
  | [] => rfl
  | .ok _ :: rs => foldl_note_some steps rs
  | .error steps' :: rs => foldl_note_some steps' rs

/-- Where nothing is noted all terms were expanded. -/
theorem eq_map_ok (h : Expanded S ts rs us) (hnone : rs.foldl note none = none) : rs = us.map .ok := by
  induction h with
  | nil => rfl
  | @cons t r ts us rs _ _ ih =>
    cases r with
    | ok u => rw [List.map_cons, ← ih hnone]; rfl
    | error steps =>
      have hsome := foldl_note_some steps rs
      rw [show rs.foldl note (some steps) = none from hnone] at hsome
      cases hsome

theorem error_mem_of_foldl_note {steps : Nat} : ∀ (rs : List (Except Nat Term)) {last : Option Nat},
    rs.foldl note last = some steps → last = some steps ∨ .error steps ∈ rs
  | [], _, h => .inl h
  | .ok _ :: rs, _, h => (error_mem_of_foldl_note rs h).imp_right (List.mem_cons_of_mem _)
  | .error steps' :: rs, _, h => by
    rcases error_mem_of_foldl_note rs h with h | h
    · cases h
      exact .inr List.mem_cons_self
    · exact .inr (List.mem_cons_of_mem _ h)

end Expanded

/-- The computation gives a value, and notes results of which `Q` holds together with it. -/
def Notes (n : Nat) (x : StateT (Option Nat) Build α) (Q : List (Except Nat Term) → α → Prop) : Prop :=
  ∀ last, Gives n (fun _ r => ∃ rs, r.2 = rs.foldl note last ∧ Q rs r.1) (x.run last)

namespace Notes
variable {P : List (Except Nat Term) → α → Prop} {Q : List (Except Nat Term) → β → Prop}

theorem pure {a : α} (h : P [] a) : Notes n (Pure.pure a) P := fun _ => .pure ⟨[], rfl, h⟩

theorem bind {x : StateT (Option Nat) Build α} {f : α → StateT (Option Nat) Build β} (hx : Notes n x P)
    (hf : ∀ k a rs, n ≤ k → P rs a → Notes k (f a) fun rs' => Q (rs ++ rs')) : Notes n (x >>= f) Q := by
  intro last
  rw [StateT.run_bind]
  refine (hx last).bind fun k r hk hr => ?_
  obtain ⟨rs, hlast, hP⟩ := hr
  refine (hf k r.1 rs hk hP r.2).mono fun _ r' _ hr' => ?_
  obtain ⟨rs', hlast', hQ⟩ := hr'
  exact ⟨rs ++ rs', by rw [List.foldl_append, ← hlast, hlast'], hQ⟩

/-- A loop over a list notes what its steps note, one after the other. -/
theorem mapM {f : α → StateT (Option Nat) Build β} {before : α → List Term} {after : β → List Term} :
    ∀ {l : List α} {n : Nat}, (∀ a ∈ l, ∀ k, n ≤ k →
        Notes k (f a) fun rs b => Expanded S (before a) rs (after b)) →
      Notes n (l.mapM f) fun rs bs => l.length = bs.length ∧ Expanded S (l.flatMap before) rs (bs.flatMap after)
  | [], n, _ => by
    rw [List.mapM_nil]
    exact pure ⟨rfl, .nil⟩
  | a :: l, n, h => by
    rw [List.mapM_cons]
    refine (h a List.mem_cons_self n (Nat.le_refl n)).bind fun k b rs hk hb => ?_
    have hrest : Notes k (l.mapM f) _ := mapM fun c hc j hj => h c (List.mem_cons_of_mem a hc) j (Nat.le_trans hk hj)
    refine hrest.bind fun _ bs rs' _ hbs => pure ⟨congrArg Nat.succ hbs.1, ?_⟩
    rw [List.append_nil]
    exact hb.append hbs.2

end Notes

/-- What a term may expand to: a result within the limit or one beyond it, with the property where it is a term. -/
def MayGive (e : Expander) (P : Term → Prop) (t : Term) (r : Except Nat Term) : Prop :=
  CanReturn (e.expand t) r ∧ e.IsWithin 0 t r ∧ ∀ u, r = .ok u → P u

section Run
variable {N : Nat} {P : Term → Prop} (he : e.IsPlain) (hP : Term.Spreads N P) (hright : ∀ r ∈ e.rules, P r.right)
include he hP hright

theorem notes_expandOrKeep {t : Term} (hn : N ≤ n) (ht : P t) :
    Notes n (e.expandOrKeep t) fun rs u => Expanded (e.MayGive P) [t] rs [u] := by
  intro last
  have hrun : (e.expandOrKeep t).run last = e.expand t >>= fun r => pure (keep t r, note last r) := by
    unfold expandOrKeep
    rw [StateT.run_bind]
    show (e.expand t >>= fun r => pure (r, last)) >>= _ = _
    rw [bind_assoc]
    refine congrArg _ (funext fun r => ?_)
    rw [pure_bind]
    cases r <;> rfl
  rw [hrun]
  refine (gives_expand he hP hright hn ht).canReturn.bind fun k r _ hr => .pure ⟨[r], rfl, ?_⟩
  exact .cons ⟨hr.2, hr.1⟩ .nil

/-- A rule is put together from what its terms expand to. -/
theorem exists_map_run {r : Rule} (hn : N ≤ n) (hterms : ∀ t ∈ r.terms, P t) :
    ∃ (body : Term) (requires ensures : List Term) (equations : List (Term × Term)) (rs : List (Except Nat Term))
      (k : Nat), n ≤ k ∧ r.equations.length = equations.length ∧
      Expanded (e.MayGive P) r.terms rs
        (body :: (requires ++ (ensures ++ equations.flatMap fun e => [e.1, e.2]))) ∧
      (r.map e.expandOrKeep).run none n = (do
        return (← Rule.assemble r.kind r.attributes body requires ensures equations, rs.foldl note none)) k := by
  obtain ⟨hbody, hterms⟩ := List.forall_mem_cons.mp hterms
  obtain ⟨hrequires, hterms⟩ := List.forall_mem_append.mp hterms
  obtain ⟨hensures, hequations⟩ := List.forall_mem_append.mp hterms
  have hconditions {ts : List Term} (hts : ∀ t ∈ ts, P t) {k : Nat} (hk : N ≤ k) :
      Notes k (ts.mapM e.expandOrKeep) fun rs us => ts.length = us.length ∧ Expanded (e.MayGive P) ts rs us := by
    have hloop := Notes.mapM (n := k) (f := e.expandOrKeep) fun t ht j hj =>
      notes_expandOrKeep he hP hright (Nat.le_trans hk hj) (hts t ht)
    simpa only [List.flatMap_singleton'] using hloop
  have hpair : ∀ p ∈ r.equations, ∀ k, N ≤ k → Notes k (do
      return (← e.expandOrKeep p.1, ← e.expandOrKeep p.2)) fun rs q =>
        Expanded (e.MayGive P) [p.1, p.2] rs [q.1, q.2] := by
    intro p hp k hk
    have hmem {t : Term} (ht : t ∈ [p.1, p.2]) : P t := hequations t (List.mem_flatMap.mpr ⟨p, hp, ht⟩)
    refine (notes_expandOrKeep he hP hright hk (hmem List.mem_cons_self)).bind fun k₁ u rs hk₁ hu => ?_
    refine (notes_expandOrKeep he hP hright (Nat.le_trans hk hk₁)
      (hmem (List.mem_cons_of_mem _ List.mem_cons_self))).bind fun k₂ v rs' _ hv => .pure ?_
    rw [List.append_nil]
    exact hu.append hv
  obtain ⟨⟨body, last₁⟩, k₁, hrun₁, hk₁, rs₁, rfl, hbody⟩ := notes_expandOrKeep he hP hright hn hbody none
  have hn₁ := Nat.le_trans hn hk₁
  obtain ⟨⟨requires, last₂⟩, k₂, hrun₂, hk₂, rs₂, rfl, -, hrequires⟩ := hconditions hrequires hn₁ (rs₁.foldl note none)
  have hn₂ := Nat.le_trans hn₁ hk₂
  obtain ⟨⟨ensures, last₃⟩, k₃, hrun₃, hk₃, rs₃, rfl, -, hensures⟩ := hconditions hensures hn₂ _
  have hn₃ := Nat.le_trans hn₂ hk₃
  have hequations := Notes.mapM fun p hp j hj => hpair p hp j (Nat.le_trans hn₃ hj)
  obtain ⟨⟨equations, last₄⟩, k₄, hrun₄, hk₄, rs₄, rfl, hlength, hequations⟩ := hequations _
  refine ⟨body, requires, ensures, equations, rs₁ ++ (rs₂ ++ (rs₃ ++ rs₄)), k₄, by omega, hlength,
    hbody.append (hrequires.append (hensures.append hequations)), ?_⟩
  unfold Rule.map
  rw [StateT.run_bind, Build.bind_eq hrun₁, StateT.run_bind, Build.bind_eq hrun₂, StateT.run_bind,
    Build.bind_eq hrun₃, StateT.run_bind, Build.bind_eq hrun₄, List.foldl_append, List.foldl_append,
    List.foldl_append]
  rfl

end Run

/-! ### Outcomes -/

theorem always_expand (he : e.IsPlain) (t : Term) : Always (e.expand t) fun r =>
    e.IsWithin 0 t r ∧ ∀ u, r = .ok u → Always (e.expand u) (· = .ok u) := by
  refine .of_gives fun n => ?_
  have hgives := gives_expand (t := t) he Term.spreads_true (fun _ _ => trivial) (Nat.zero_le n) trivial
  refine hgives.mono fun _ r _ hr => ⟨hr.1, ?_⟩
  rintro u rfl
  exact expand_of_isNormal he hr.1.1

/-- What becomes of a rule whose terms have these results. -/
inductive Settles (e : Expander) (r : Rule) : List (Except Nat Term) → RuleOutcome → Prop where
  | kept {us : List Term} (h : List.Forall₂ (fun t u : Term => t == u) r.terms us) : Settles e r (us.map .ok) .kept
  | changed {r' : Rule} (hkind : r'.kind = r.kind) : Settles e r (r'.terms.map .ok) (.changed r')
  | dropped {rs : List (Except Nat Term)} {steps : Nat} (h : .error steps ∈ rs) :
      Settles e r rs (.dropped (e.divergence r steps))

/-- What becomes of a rule: expansion rules are left alone, any other rule settles by what its terms expand to. -/
inductive Treats (e : Expander) (r : Rule) : RuleOutcome → Prop where
  | exempt (hr : r.kind = .expansion) : Treats e r .kept
  | expanded {rs : List (Except Nat Term)} {o : RuleOutcome} (hr : r.kind ≠ .expansion)
      (hrs : List.Forall₂ (fun t => CanReturn (e.expand t)) r.terms rs) (h : e.Settles r rs o) : Treats e r o

variable {r : Rule} {o : RuleOutcome}

/-- What is left of a rule that is no expansion rule has terms in normal form. -/
theorem Treats.isNormal (he : e.IsPlain) (h : e.Treats r o) {r' : Rule} (hr' : o.rule? r = some r')
    (hkind : r'.kind ≠ .expansion) : ∀ t ∈ r'.terms, e.IsNormal t := by
  cases h with
  | exempt hr =>
    cases hr'
    exact absurd hr hkind
  | expanded _ hrs h =>
    have hnormal {us : List Term} (hus : List.Forall₂ (fun t => CanReturn (e.expand t)) r.terms (us.map .ok)) :
        ∀ u ∈ us, e.IsNormal u := by
      intro u hu
      obtain ⟨t, -, ht⟩ := PairedLists.exists_mem (List.forall₂_map_right_iff.mp hus).flip hu
      exact ((always_expand he t).returns _ ht).1.1
    cases h with
    | kept h =>
      cases hr'
      intro t ht
      obtain ⟨u, hu, htu⟩ := PairedLists.exists_mem h ht
      exact (hnormal hrs u hu).congr he (BEq.symm htu)
    | changed =>
      cases hr'
      exact hnormal hrs
    | dropped => cases hr'

/-- The outcome for the rule, put together again, and what was noted. -/
def outcome (e : Expander) (r r' : Rule) : Option Nat → RuleOutcome
  | none => .ofRule r r'
  | some steps => .dropped (e.divergence r steps)

theorem expandRule_eq (hr : r.kind ≠ .expansion) : e.expandRule r = do
    let (r', noted) ← (r.map e.expandOrKeep).run none
    return e.outcome r r' noted := by
  unfold expandRule
  rw [if_neg (by simpa using hr)]
  refine congrArg _ (funext fun p => ?_)
  obtain ⟨r', _ | steps⟩ := p <;> rfl

section Rule
variable {N : Nat} {ts : List Term} (he : e.IsPlain) (hheap : Term.AreHeap N ts)
  (hfrozen : ∀ t ∈ ts, t.touchesEditable = false) (hright : ∀ r ∈ e.rules, r.right ∈ ts) (hterms : r.terms ⊆ ts)
  (hn : N ≤ n) (hr : r.kind ≠ .expansion)
include he hheap hfrozen hright hterms hn hr

/-- Once its terms are expanded, the rule is put together, and settles by what was noted. -/
theorem exists_expandRule_run : ∃ (body : Term) (requires ensures : List Term) (equations : List (Term × Term))
    (noted : Option Nat) (k : Nat), n ≤ k ∧ r.equations.length = equations.length ∧
      (∀ t ∈ body :: (requires ++ ensures), t.touchesEditable = false) ∧
      (∀ r', r'.kind = r.kind → r'.terms = body :: (requires ++ (ensures ++ equations.flatMap fun e => [e.1, e.2])) →
        e.Treats r (e.outcome r r' noted)) ∧
      e.expandRule r n = (do
        return e.outcome r (← Rule.assemble r.kind r.attributes body requires ensures equations) noted) k := by
  have hdrawn : ∀ t ∈ ts, t.IsDrawn N (ts.flatMap Term.nodes) := fun t ht => Term.isDrawn_of_mem ht (hfrozen t ht)
  obtain ⟨body, requires, ensures, equations, rs, k, hk, hlength, hexpanded, hrun⟩ :=
    exists_map_run he (Term.spreads_isDrawn N _) (fun r hr => hdrawn _ (hright r hr)) hn
      fun t ht => hdrawn t (hterms ht)
  have hus := hexpanded.forall_mem (fun _ _ h => h.2.2) fun t ht => hdrawn t (hterms ht)
  refine ⟨body, requires, ensures, equations, rs.foldl note none, k, hk, hlength, fun t ht => ?_,
    fun r' hkind hr' => .expanded hr (hexpanded.results.imp fun _ _ h => h.1) ?_, ?_⟩
  · refine (hus t ?_).not_touchesEditable
    rw [← List.append_assoc, ← List.cons_append]
    exact List.mem_append_left _ ht
  · cases hnoted : rs.foldl note none with
    | some steps => exact .dropped ((Expanded.error_mem_of_foldl_note rs hnoted).resolve_left nofun)
    | none =>
      rw [hexpanded.eq_map_ok hnoted, ← hr']
      rw [← hr'] at hexpanded hus
      rw [outcome, RuleOutcome.ofRule]
      split
      · rename_i hsame
        exact .kept (hheap.equal_of_allSame hterms hexpanded.length_eq hus hsame)
      · exact .changed hkind
  · rw [expandRule_eq hr]
    have hbind (f : Rule × Option Nat → Build RuleOutcome) :
        ((r.map e.expandOrKeep).run none >>= f) n = ((do
          let r' ← Rule.assemble r.kind r.attributes body requires ensures equations
          return (r', rs.foldl note none)) >>= f) k := by
      rw [Build.bind_run, Build.bind_run, hrun]
    rw [hbind, bind_assoc]
    rfl

theorem from_expandRule : From n (fun _ => e.Treats r) (e.expandRule r) := by
  obtain ⟨body, requires, ensures, equations, noted, k, hk, -, hfrozen, htreats, hrun⟩ :=
    exists_expandRule_run he hheap hfrozen hright hterms hn hr
  intro o k' ho
  rw [hrun] at ho
  have hfrom : From k (fun _ => e.Treats r) (do
      return e.outcome r (← Rule.assemble r.kind r.attributes body requires ensures equations) noted) :=
    (Rule.from_assemble hfrozen).bind fun _ r' _ hr' => .pure (htreats r' hr'.1 hr'.2)
  obtain ⟨hk', ho⟩ := hfrom o k' ho
  exact ⟨Nat.le_trans hk hk', ho⟩

theorem gives_expandRule (hequations : r.equations = []) : Gives n (fun _ _ => True) (e.expandRule r) := by
  obtain ⟨body, requires, ensures, equations, noted, k, hk, hlength, hfrozen, -, hrun⟩ :=
    exists_expandRule_run he hheap hfrozen hright hterms hn hr
  rw [hequations] at hlength
  obtain rfl := List.length_eq_zero_iff.mp hlength.symm
  have hgives : Gives k (fun _ _ => True) (do
      return e.outcome r (← Rule.assemble r.kind r.attributes body requires ensures []) noted) :=
    (Rule.gives_assemble_nil hfrozen).bind fun _ _ _ _ => .pure trivial
  obtain ⟨o, k', ho, hk', -⟩ := hgives
  exact ⟨o, k', hrun.trans ho, Nat.le_trans hk hk', trivial⟩

end Rule

end Expander

end RuleCompiler
