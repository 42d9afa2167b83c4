import RuleCompiler.Proofs.Term.Data

/-! # Instances that match

`Lands σ p s` says that bindings make a pattern the subject in such a way that its parts have places in
the subject: different entries of a map, elements of a set and cells have different ones, and what is
left over is what the unknown part of the collection stands for. -/

namespace RuleCompiler

open Build (Always)

/-- Whether a match can go through the node: it has no don't-care variable and no list of a user
operator, sequences are spliced, unknown parts are variables or, in a list, runs of known items, a map,
a set and a group of cells have one at most, and keys and elements with variables are first-order. -/
def Node.isMatchable : Node Term → Bool
  | .var v => !v.isDontCare
  | .seq items _ => items.all fun t => match t.node with
    | .seq .. => false
    | _ => true
  | .list ops _ base _ => !ops.isOperator && base.all fun b => b.isVar || ListParts.isRun ops b
  | .map _ entries base => entries.all (fun e => e.1.isFirstOrder fun _ => true) &&
      base.all Term.isVar && decide (base.length ≤ 1)
  | .set _ elements base => elements.all (Term.isFirstOrder fun _ => true) && base.all Term.isVar &&
      decide (base.length ≤ 1)
  | .cells _ frames => decide (frames.length ≤ 1)
  | _ => true

namespace Term
variable {t c : Term}

/-- Terms without rewrites and disjunctions, in which a match can go through every node with
variables. -/
def IsMatchable (t : Term) : Prop :=
  t.everyNode fun u => !u.isRewrite && !u.isDisjunction && (u.isGround || u.node.isMatchable)

instance (t : Term) : Decidable t.IsMatchable := inferInstanceAs (Decidable (_ = true))

namespace IsMatchable

theorem child (h : t.IsMatchable) (hc : c ∈ t.children) : c.IsMatchable :=
  (everyNode_iff.mp h).2.1 c hc

theorem node (h : t.IsMatchable) (ht : t.isGround = false) : t.node.isMatchable := by
  have hnode := (everyNode_iff.mp h).1
  simpa [ht] using ((Bool.and_eq_true _ _).mp hnode).2

theorem not_choice (h : t.IsMatchable) : t.isRewrite = false ∧ t.isDisjunction = false := by
  have hnode := (everyNode_iff.mp h).1
  simp only [Bool.and_eq_true, Bool.not_eq_true'] at hnode
  exact hnode.1

theorem isCompared (h : t.IsMatchable) (ht : t.isGround) : Matching.isCompared t := by
  have hrewrite : t.hasRewrite = false := anyNode_of_everyNode h fun u hu => by simp_all
  have hdisjunction : t.hasDisjunction = false := anyNode_of_everyNode h fun u hu => by simp_all
  rw [Matching.isCompared, ht, hrewrite, hdisjunction]
  rfl

theorem of_isCompared (h : Matching.isCompared t) : t.IsMatchable := by
  simp only [Matching.isCompared, Bool.and_eq_true, Bool.not_eq_true'] at h
  obtain ⟨⟨hground, hrewrite⟩, hdisjunction⟩ := h
  induction t using Term.induction with
  | h t ih =>
    rw [hasRewrite, anyNode_eq] at hrewrite
    rw [hasDisjunction, anyNode_eq] at hdisjunction
    simp only [Bool.or_eq_false_iff, List.any_eq_false, Bool.not_eq_true] at hrewrite hdisjunction
    obtain ⟨-, hchildren, hframes⟩ := isGround_iff.mp hground
    refine everyNode_iff.mpr ⟨?_, fun c hc => ?_, ?_⟩
    · rw [hrewrite.1.1, hdisjunction.1.1, hground]
      rfl
    · exact ih c hc (hdisjunction.1.2 c hc) (hchildren c hc) (hrewrite.1.2 c hc)
    · rw [hframes]
      exact List.forall_mem_nil _

/-- An application of patterns is one. -/
theorem app {l : String} {args : List Term} {s : SortName} (ht : t.node = .app (.const l) args s)
    (hargs : ∀ a ∈ args, a.IsMatchable) : t.IsMatchable := by
  refine everyNode_iff.mpr ⟨?_, ?_, ?_⟩
  · simp [isRewrite, isDisjunction, Node.isMatchable, ht]
  · rwa [children, ht]
  · rw [frames, ht]
    exact List.forall_mem_nil _

theorem named_of_var (h : t.IsMatchable) {v : Var} (hn : t.node = .var v) : v.isDontCare = false := by
  have hground : t.isGround = false := by
    rw [← Bool.not_eq_true]
    exact fun hg => not_isVar_of_isGround hg hn
  have hopen := h.node hground
  rw [hn] at hopen
  simpa [Node.isMatchable] using hopen

theorem named_of_frame (h : t.IsMatchable) {v : Var} (hv : v ∈ t.frames) : v.isDontCare = false := by
  have hnode := (everyNode_iff.mp h).2.2 v hv
  have hground : (canonical (.var v)).isGround = false := by
    rw [← Bool.not_eq_true]
    exact fun hg => not_isVar_of_isGround hg rfl
  simp only [hground, Bool.false_or, Bool.and_eq_true] at hnode
  simpa [Node.isMatchable] using hnode.2

end IsMatchable

end Term

namespace Matching

/-- The bindings make the pattern the subject, whose parts are where those of the pattern land. -/
inductive Lands (σ : Substitution) : Term → Term → Prop where
  | ground {p s : Term} (hp : p.isGround) (h : p == s) : Lands σ p s
  | var {p s : Term} {v : Var} (hn : p.node = .var v) (h : Names σ v s) : Lands σ p s
  | app {p s : Term} {l : String} {ps ss : List Term} {k : SortName} (hp : p.isGround = false)
      (hn : p.node = .app (.const l) ps k) (hs : s.node = .app (.const l) ss k)
      (h : List.Forall₂ (Lands σ) ps ss) : Lands σ p s
  | freezer {p s f g : Term} {ps ss : List Term} {k : SortName} (hp : p.isGround = false)
      (hn : p.node = .app (.freezer f) ps k) (hs : s.node = .app (.freezer g) ss k)
      (hf : Lands σ f g) (h : List.Forall₂ (Lands σ) ps ss) : Lands σ p s
  | sequence {p s : Term} {items ts fs : List Term} {frame : Option Var} (hp : p.isGround = false)
      (hn : p.node = .seq items frame) (h : List.Forall₂ (Lands σ) items ts)
      (hf : List.Forall₂ (Names σ) frame.toList fs) (hs : s.items = (ts ++ fs).flatMap Term.items) :
      Lands σ p s
  | list {p s : Term} {ops : CollectionOps} {left base right ls bs rs : List Term}
      {runs : List (List Term)} (hp : p.isGround = false) (hn : p.node = .list ops left base right)
      (hs : s.node = .list ops (ls ++ (runs.flatten ++ rs)) [] [])
      (hl : List.Forall₂ (Lands σ) left ls) (hb : List.Forall₂ (Lands σ) base bs)
      (hruns : List.Forall₂ (fun b run => b.node = .list ops run [] []) bs runs)
      (hr : List.Forall₂ (Lands σ) right rs) : Lands σ p s
  | map {p s : Term} {ops : CollectionOps} {es es' used : List (Term × Term)} {base bs : List Term}
      {rests : List (List (Term × Term))} (hp : p.isGround = false) (hn : p.node = .map ops es base)
      (hs : s.node = .map ops es' []) (hk : List.Forall₂ (Lands σ) (es.map (·.1)) (used.map (·.1)))
      (hv : List.Forall₂ (Lands σ) (es.map (·.2)) (used.map (·.2)))
      (hb : List.Forall₂ (Lands σ) base bs)
      (hrests : List.Forall₂ (fun b rest => b.node = .map ops rest []) bs rests)
      (h : es'.Perm (used ++ rests.flatten)) : Lands σ p s
  | set {p s : Term} {ops : CollectionOps} {es es' used base bs : List Term}
      {rests : List (List Term)} (hp : p.isGround = false) (hn : p.node = .set ops es base)
      (hs : s.node = .set ops es' []) (he : List.Forall₂ (Lands σ) es used)
      (hb : List.Forall₂ (Lands σ) base bs)
      (hrests : List.Forall₂ (fun b rest => b.node = .set ops rest []) bs rests)
      (h : es'.Perm (used ++ rests.flatten)) : Lands σ p s
  | cells {p s : Term} {cs cs' used : List Cell} {frames : List Var} {fs : List Term}
      {rests : List (List Cell)} (hp : p.isGround = false) (hn : p.node = .cells cs frames)
      (hs : s.node = .cells cs' [])
      (hl : List.Forall₂ (fun c u => u.label = c.label ∧ u.multiplicity = c.multiplicity) cs used)
      (hc : List.Forall₂ (Lands σ) (cs.map (·.content)) (used.map (·.content)))
      (hf : List.Forall₂ (Names σ) frames fs)
      (hrests : List.Forall₂ (fun f rest => f.node = .cells rest []) fs rests)
      (h : cs'.Perm (used ++ rests.flatten)) : Lands σ p s

variable {σ τ : Substitution} {p s : Term}

theorem Lands.beq_of_isGround (h : Lands σ p s) (hp : p.isGround) : p == s := by
  cases h with
  | ground _ h => exact h
  | var hn => exact absurd hn (Term.not_isVar_of_isGround hp)
  | _ h =>
    rw [hp] at h
    cases h

theorem Lands.names {v : Var} (h : Lands σ p s) (hn : p.node = .var v) : Names σ v s := by
  cases h with
  | ground hp => exact absurd hn (Term.not_isVar_of_isGround hp)
  | var hn' h =>
    rw [hn] at hn'
    cases hn'
    exact h
  | _ _ hn' =>
    rw [hn] at hn'
    cases hn'

/-- Applications land on applications to what their arguments land on. -/
theorem lands_app {l : String} {ps ss : List Term} {k : SortName}
    (hn : p.node = .app (.const l) ps k) (hs : s.node = .app (.const l) ss k)
    (h : List.Forall₂ (Lands σ) ps ss) : Lands σ p s := by
  cases hp : p.isGround with
  | false => exact .app hp hn hs h
  | true =>
    refine .ground hp (Term.beq_of_alike ?_)
    rw [hn, hs]
    refine .app (PairedLists.imp_mem h fun c hc t _ h => h.beq_of_isGround ?_)
    exact Term.isGround_child hp (by rwa [Term.children, hn])

theorem Lands.exists_app {l : String} {ps : List Term} {k : SortName} (h : Lands σ p s)
    (hn : p.node = .app (.const l) ps k) :
    ∃ ss, s.node = .app (.const l) ss k ∧ List.Forall₂ (Lands σ) ps ss := by
  cases h with
  | ground hp h =>
    have halike := Term.alike_of_beq h
    rw [hn] at halike
    generalize hs : s.node = m at halike
    cases halike with
    | app h =>
      refine ⟨_, rfl, PairedLists.imp_mem h fun c hc t _ h => .ground ?_ h⟩
      exact Term.isGround_child hp (by rwa [Term.children, hn])
  | var hn' =>
    rw [hn] at hn'
    cases hn'
  | app _ hn' hs h =>
    rw [hn] at hn'
    cases hn'
    exact ⟨_, hs, h⟩
  | _ _ hn' =>
    rw [hn] at hn'
    cases hn'

/-- A run of items lands on a run of what they land on. -/
theorem Lands.exists_run {ops : CollectionOps} {run items : List Term} (h : Lands σ p s)
    (hn : p.node = .list ops run [] []) (hs : s.node = .list ops items [] []) :
    List.Forall₂ (Lands σ) run items := by
  cases h with
  | ground hp h =>
    have halike := Term.alike_of_beq h
    rw [hn, hs] at halike
    cases halike with
    | list hl =>
      refine PairedLists.imp_mem hl fun c hc t _ h => .ground ?_ h
      exact Term.isGround_child hp (by rw [Term.children, hn]; simpa [Node.children] using hc)
  | var hn' =>
    rw [hn] at hn'
    cases hn'
  | list _ hn' hs' hl hb hruns hr =>
    rw [hn] at hn'
    rw [hs] at hs'
    cases hn'
    cases hb
    cases hruns
    cases hr
    simp only [List.flatten_nil, List.append_nil, Node.list.injEq, and_true, true_and] at hs'
    exact hs' ▸ hl
  | _ _ hn' =>
    rw [hn] at hn'
    cases hn'

/-! ### Bindings on the way -/

/-- Every binding of `τ` is one of `σ`. -/
def Follows (σ τ : Substitution) : Prop :=
  ∀ v t, τ.get? v = some t → ∃ u, σ.get? v = some u ∧ t == u

/-- Variables are bound to data. -/
def HoldsData (σ : Substitution) : Prop := ∀ v t, σ.get? v = some t → t.IsData

theorem holdsData_of_bindings (h : ∀ e ∈ σ.bindings, e.2.IsData) : HoldsData σ :=
  fun _ _ hv => h _ (Substitution.mem_bindings hv)

/-- What a variable is bound to on the way lands where the variable does. -/
theorem Lands.of_follows {v : Var} {u : Term} (hτ : HoldsData τ) (hv : τ.get? v = some u)
    (hn : p.node = .var v) (hfollows : Follows σ τ) (h : Lands σ p s) : Lands σ u s := by
  obtain ⟨t, ht, hut⟩ := hfollows v u hv
  obtain ⟨t', ht', hts, -⟩ := h.names hn
  rw [ht] at ht'
  cases ht'
  exact .ground (hτ v u hv).isGround (BEq.trans hut hts)

theorem vars_of_app {l : String} {args : List Term} {k : SortName}
    (hn : p.node = .app (.const l) args k) : p.vars = args.flatMap Term.vars := by
  rw [Term.vars_eq, hn, Term.children, Term.frames, hn]
  exact List.append_nil _

/-- What the bindings on the way to `σ` make of a first-order pattern lands where it does. -/
theorem always_apply (hτ : HoldsData τ) (hp : p.IsMatchable) (hfo : p.isFirstOrder fun _ => true) :
    Always (τ.apply p) fun q => q.IsMatchable ∧ (∀ v ∈ p.vars, (τ.get? v).isSome ∨ v ∈ q.vars) ∧
      ∀ s, Follows σ τ → Lands σ p s → Lands σ q s := by
  induction p using Term.induction with
  | h p ih =>
    have hkept : p.IsMatchable ∧ (∀ v ∈ p.vars, (τ.get? v).isSome ∨ v ∈ p.vars) ∧
        ∀ s, Follows σ τ → Lands σ p s → Lands σ p s :=
      ⟨hp, fun _ => .inr, fun _ _ h => h⟩
    by_cases hground : p.isGround
    · rw [Substitution.apply, Term.substitute_of_isGround hground]
      exact .pure hkept
    rw [Bool.not_eq_true] at hground
    rw [Term.isFirstOrder_eq] at hfo
    split at hfo
    · rename_i v hn
      rw [Substitution.apply, Term.substitute_of_var hn]
      cases hv : τ.get? v with
      | none => exact .pure hkept
      | some u =>
        have hu := hτ v u hv
        refine .pure ⟨.of_isCompared hu.isCompared, fun w hw => .inl ?_, fun s hfollows h =>
          h.of_follows hτ hv hn hfollows⟩
        rw [Term.vars_eq, hn, List.mem_singleton] at hw
        rw [hw, hv]
        rfl
    · rename_i k x hn
      have htoken : p.isGround := by
        rw [Term.isGround_iff, Term.isVar, Term.children, Term.frames, hn]
        exact ⟨rfl, List.forall_mem_nil _, rfl⟩
      rw [hground] at htoken
      cases htoken
    · rename_i l args k hn
      have hchildren : p.children = args := by rw [Term.children, hn]; rfl
      have hframes : p.frames = [] := by rw [Term.frames, hn]; rfl
      rw [Substitution.apply, Term.substitute_eq (by rw [Term.isVar, hn]; rfl)]
      refine Term.always_update hframes (fun c hc => ih c hc (hp.child hc) ?_) hkept fun cs hcs => ?_
      · exact List.all_eq_true.mp hfo c (hchildren ▸ hc)
      · rw [hchildren] at hcs
        rw [Term.rebuild_app hn]
        refine (Term.always_new _).mono fun u hu q hq => ?_
        rw [hu] at hq
        refine ⟨.app hq fun c hc => ?_, fun v hv => ?_, fun s hfollows h => ?_⟩
        · obtain ⟨d, -, hd⟩ := PairedLists.exists_mem hcs.flip hc
          exact hd.1
        · rw [vars_of_app hn] at hv
          obtain ⟨c, hc, hv⟩ := List.mem_flatMap.mp hv
          obtain ⟨d, hd, -, hcd, -⟩ := PairedLists.exists_mem hcs hc
          refine (hcd v hv).imp_right fun hv => ?_
          rw [vars_of_app hq]
          exact List.mem_flatMap.mpr ⟨d, hd, hv⟩
        · obtain ⟨ss, hs, hss⟩ := h.exists_app hn
          refine lands_app hq hs (PairedLists.comp (fun d c t h h' => ?_) hcs.flip hss)
          exact h.2.2 t hfollows h'
    · rw [hground] at hfo
      cases hfo

end Matching

end RuleCompiler
