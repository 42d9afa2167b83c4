import RuleCompiler.Proofs.Term.Expr
import RuleCompiler.Proofs.Term.Tidy
import RuleCompiler.Term.Sharing

/-! # Walks keep terms tidy

A walk computes new children and puts them into the node through the builders, so it is enough
that what it puts in is tidy. -/

namespace RuleCompiler.Term

open Build (Always Gives)

universe u
variable {b : Bool} {t : Term}

/-! ### Rebuilding -/

theorem isRewrite_of_ne (h : ∀ l r, t.node ≠ .rewrite l r) : t.isRewrite = false := by
  unfold isRewrite
  split
  · exact absurd ‹_› (h _ _)
  · rfl

theorem exists_sides_of_isRewrite (h : t.isRewrite) : ∃ l r, t.node = .rewrite l r := by
  by_contra hno
  rw [isRewrite_of_ne fun l r hn => hno ⟨l, r, hn⟩] at h
  cases h

/-- A rewrite is rebuilt from its sides. -/
theorem tidy_rebuildRewrite {l r : Term} (hn : t.node = .rewrite l r) {cs fs : List Term}
    (hc : List.Forall₂ (fun c c' => c ∈ t.sides b → Tidy b c') t.children cs) :
    Returns (Tidy b) (t.rebuild cs fs) := by
  rw [children, hn] at hc
  cases hc with
  | @cons _ l' _ _ hl hc =>
  cases hc with
  | @cons _ r' _ _ hr hc =>
  cases hc
  have hrebuild : t.rebuild [l', r'] fs = rewrite l' r' := by unfold rebuild; rw [hn]
  rw [hrebuild]
  refine tidy_newRewrite (hl ?_) fun hb => hr ?_
  · cases b <;> simp [sides, hn]
  · subst hb
    simp [sides, hn]

theorem tidy_rebuildChoice (hr : t.isRewrite = false) (hn : t.node.isChoice) {cs fs : List Term}
    (hc : ∀ c ∈ cs, Tidy b c) : Returns (Tidy b) (t.rebuild cs fs) := by
  rw [isRewrite] at hr
  unfold rebuild
  cases hk : t.node with
  | disjunction branches =>
    refine tidy_new (tidy_of_sides rfl fun c h => ?_)
    obtain ⟨e, he, rfl⟩ := List.mem_map.mp h
    obtain ⟨i, hi, rfl⟩ := List.getElem_of_mem he
    rw [List.getElem_zipWith]
    exact hc _ (List.getElem_mem _)
  | rightSides byRule =>
    refine tidy_new (tidy_of_sides rfl fun c h => ?_)
    obtain ⟨o, ho, h⟩ := List.mem_filterMap.mp h
    cases h
    exact hc c (mem_refill ho)
  | rewrite l r => simp [hk] at hr
  | _ => simp [hk, Node.isChoice] at hn

/-- A node rebuilt from tidy children is tidy. -/
theorem tidy_rebuild {cs fs : List Term} (ht : Tidy b t)
    (hc : List.Forall₂ (fun c c' => c ∈ t.sides b → Tidy b c') t.children cs)
    (hf : ∀ f ∈ fs, Tidy b f) : Returns (Tidy b) (t.rebuild cs fs) := by
  cases hr : t.isRewrite with
  | true =>
    obtain ⟨l, r, hn⟩ := exists_sides_of_isRewrite hr
    exact tidy_rebuildRewrite hn hc
  | false =>
    have hall : ∀ c ∈ cs, Tidy b c := by
      rw [sides_of_not_rewrite hr] at hc
      intro c hm
      obtain ⟨i, hi, rfl⟩ := List.getElem_of_mem hm
      have hi' : i < t.children.length := hc.length_eq ▸ hi
      exact (List.forall₂_iff_get.mp hc).2 i hi' hi (List.getElem_mem hi')
    refine .of_from fun k => kept_rebuild (tidy_kept b) (Nat.le_refl k) hall hf (fun _ => ht) fun hn => ?_
    exact .of_returns (tidy_rebuildChoice hr hn hall) (grows_rebuild t cs fs k)

theorem rebuild_app {l : String} {args : List Term} {s : SortName} (hn : t.node = .app (.const l) args s)
    (cs fs : List Term) : t.rebuild cs fs = new (.app (.const l) cs s) := by
  unfold rebuild
  rw [hn]
  rfl

theorem rebuild_seq {items : List Term} {frame : Option Var} (hn : t.node = .seq items frame)
    (cs fs : List Term) : t.rebuild cs fs = sequence (cs ++ fs) := by
  unfold rebuild
  rw [hn]

theorem rebuild_freezer {f : Term} {args : List Term} {s : SortName}
    (hn : t.node = .app (.freezer f) args s) (c : Term) (cs fs : List Term) :
    t.rebuild (c :: cs) fs = new (.app (.freezer c) cs s) := by
  unfold rebuild
  rw [hn]
  rfl

theorem refill_congr {R : Term → Term → Prop} {ts us : List (Option Term)} (h : List.Forall₂ (Option.Rel R) ts us)
    (cs : List Term) : refill ts cs = refill us cs := by
  induction h generalizing cs with
  | nil => rfl
  | cons ho _ ih =>
    cases ho with
    | none => rw [refill, refill, ih]
    | some =>
      cases cs with
      | nil => rfl
      | cons c cs => rw [refill, refill, ih]

/-- Nodes of one kind with as many children are made again in the same way, or they are kept. -/
theorem rebuild_congr {R : Term → Term → Prop} {t u : Term} (h : Node.Alike R t.node u.node)
    (cs fs : List Term) :
    t.rebuild cs fs = u.rebuild cs fs ∨ t.rebuild cs fs = pure t ∧ u.rebuild cs fs = pure u := by
  unfold rebuild
  generalize t.node = m, u.node = n at h
  cases h with
  | app | seq => exact .inl rfl
  | freezer =>
    cases cs with
    | nil => exact .inr ⟨rfl, rfl⟩
    | cons => exact .inl rfl
  | list hl hb =>
    refine .inl ?_
    dsimp only
    rw [hl.length_eq, hb.length_eq]
  | map he | set he =>
    refine .inl ?_
    dsimp only
    rw [he.length_eq]
  | cells h =>
    refine .inl (congrArg (cellsFrom · fs) ?_)
    induction h generalizing cs with
    | nil => rfl
    | cons hc _ ih =>
      cases cs with
      | nil => rfl
      | cons c cs => rw [List.zipWith_cons_cons, List.zipWith_cons_cons, hc.1, hc.2.1, ih]
  | rewrite =>
    rcases cs with _ | ⟨l, _ | ⟨r, _ | _⟩⟩
    · exact .inr ⟨rfl, rfl⟩
    · exact .inr ⟨rfl, rfl⟩
    · exact .inl rfl
    · exact .inr ⟨rfl, rfl⟩
  | disjunction h =>
    refine .inl (congrArg (fun bs => new (.disjunction bs)) ?_)
    induction h generalizing cs with
    | nil => rfl
    | cons hb _ ih =>
      cases cs with
      | nil => rfl
      | cons c cs => rw [List.zipWith_cons_cons, List.zipWith_cons_cons, hb.2, ih]
  | rightSides h => exact .inl (congrArg (fun ts => new (.rightSides ts)) (refill_congr h cs))
  | _ => exact .inr ⟨rfl, rfl⟩

/-! ### Updates -/

section Update
variable {m : Type → Type} [Monad m] [LawfulMonad m] [MonadAttach m] [LawfulMonadAttach m]
  [MonadLiftT Build m] [LawfulMonadLiftT Build m]

theorem makeEditable_node (start : Nat) (t : Term) : (makeEditable start t).node = t.node := by
  unfold makeEditable
  split <;> rfl

theorem makeEditable_id (start : Nat) (t : Term) : (makeEditable start t).mark.id = t.mark.id := by
  unfold makeEditable
  split <;> rfl

/-- Being editable is a matter of the top node. -/
theorem makeEditable_cases (start : Nat) (t : Term) : t.makeEditable start = t ∨
    t.isCanonical = false ∧ start ≤ t.mark.id ∧ t.makeEditable start = t.withEditable true := by
  unfold makeEditable
  split
  · rename_i h
    rw [Bool.and_eq_true, Bool.not_eq_true', decide_eq_true_iff] at h
    exact .inr ⟨h.1, h.2, rfl⟩
  · exact .inl rfl

theorem tidy_update {f frame : Term → m Term} (ht : Tidy b t)
    (hf : ∀ c ∈ t.sides b, Returns (Tidy b) (f c))
    (hframe : ∀ u, u.isVar → Returns (Tidy b) (frame u)) :
    Returns (Tidy b) (t.update (t.children.map f) frame) := by
  unfold update
  refine .bind' fun start => ?_
  rw [List.mapM_map]
  have hchildren : Returns (List.Forall₂ (fun c c' => c ∈ t.sides b → Tidy b c') t.children)
      (t.children.mapM (id ∘ f)) := by
    refine .mapM fun c _ => ?_
    by_cases hc : c ∈ t.sides b
    · exact (hf c hc).mono fun _ h _ => h
    · exact (Returns.trivial _).mono fun _ _ h => absurd h hc
  refine hchildren.bind fun cs hcs => ?_
  have hframes : Returns (fun fs : List (Term × Term) => ∀ f ∈ fs, Tidy b f.2)
      (t.frames.mapM fun v => do
        let node ← liftM (var v)
        return (node, ← frame node)) := by
    refine .mapM_all fun v _ => ?_
    refine (Returns.lift (returns_var v)).bind fun u hu => ?_
    refine (hframe u ?_).bind fun u' hu' => .pure hu'
    rw [isVar, hu]
    rfl
  refine hframes.bind fun fs hfs => ?_
  refine .ite (fun _ => .pure ht) fun _ => ?_
  have hrebuild : Returns (Tidy b) (t.rebuild cs (fs.map (·.2))) := by
    refine tidy_rebuild ht hcs fun f hf => ?_
    obtain ⟨g, hg, rfl⟩ := List.mem_map.mp hf
    exact hfs g hg
  refine (Returns.lift hrebuild).bind fun t' ht' => .pure ?_
  split
  · exact (tidy_congr (makeEditable_node start t')).mpr ht'
  · exact ht'

theorem tidy_of_isVar {u : Term} (h : u.isVar) : Tidy b u := by
  obtain ⟨m, n⟩ := u
  cases n with
  | var v => exact tidy_var b m v
  | _ => cases h

/-- Replacing from the top down keeps terms tidy when the answers are tidy. -/
theorem tidy_replaceDown {visit : Term → m (Option Term)}
    (hvisit : ∀ t, Tidy b t → Returns (fun o => ∀ t', o = some t' → Tidy b t') (visit t)) :
    ∀ t, Tidy b t → Returns (Tidy b) (replaceDown visit t) := by
  intro t
  induction t using Term.induction with
  | h t ih =>
    intro ht
    rw [replaceDown, fold_eq, ← replaceDown]
    refine (hvisit t ht).bind fun o ho => ?_
    cases o with
    | some t' => exact .pure (ho t' rfl)
    | none =>
      refine tidy_update ht (fun c hc => ih c (sides_subset hc) (tidy_child ht hc)) fun u hu => ?_
      have hu := tidy_of_isVar (b := b) hu
      refine (hvisit u hu).bind fun o ho => .pure ?_
      cases o with
      | some u' => exact ho u' rfl
      | none => exact hu

/-- Replacing from the leaves up keeps terms tidy when `visit` does. -/
theorem tidy_replaceUp {visit : Term → m Term}
    (hvisit : ∀ t, Tidy b t → Returns (Tidy b) (visit t)) :
    ∀ t, Tidy b t → Returns (Tidy b) (replaceUp visit t) := by
  intro t
  induction t using Term.induction with
  | h t ih =>
    intro ht
    rw [replaceUp, fold_eq, ← replaceUp]
    refine Returns.bind (tidy_update ht (fun c hc => ih c (sides_subset hc) (tidy_child ht hc))
      fun u hu => hvisit u (tidy_of_isVar hu)) hvisit

end Update

/-! ### Nodes that stay -/

theorem asVar?_of_var {v : Var} (hn : t.node = .var v) : t.asVar? = some v := by rw [asVar?, hn]

theorem node_of_asVar? {v : Var} (h : t.asVar? = some v) : t.node = .var v := by
  unfold asVar? at h
  split at h
  · cases h
    assumption
  · cases h

theorem exists_var (h : t.isVar) : ∃ v, t.node = .var v := by
  unfold isVar Node.isVar at h
  split at h
  · exact ⟨_, ‹_›⟩
  · cases h

theorem isVar_of_asVar? (h : t.asVar? = none) : t.isVar = false := by
  unfold asVar? at h
  unfold isVar
  split at h <;> simp_all [Node.isVar]

theorem asVar?_eq_none (h : t.isVar = false) : t.asVar? = none := by
  unfold asVar?
  unfold isVar Node.isVar at h
  split
  · simp_all
  · rfl

/-- A node whose children stay as they are stays as it is. -/
theorem update_eq_self {f frame : Term → Build Term} (hframes : t.frames = [])
    (hf : ∀ c ∈ t.children, f c = pure c) : t.update (t.children.map f) frame = pure t := by
  have hmap : t.children.mapM (id ∘ f) = pure t.children := by
    have hall : ∀ ts : List Term, (∀ c ∈ ts, f c = pure c) → ts.mapM (id ∘ f) = pure ts := by
      intro ts hts
      induction ts with
      | nil => rfl
      | cons c ts ih =>
        obtain ⟨hc, hts⟩ := List.forall_mem_cons.mp hts
        rw [List.mapM_cons, Function.comp, id, hc, pure_bind, ← Function.comp_def, ih hts]
        rfl
    exact hall _ hf
  unfold update
  rw [List.mapM_map, hmap, hframes]
  simp only [List.mapM_nil, pure_bind, allSame_self, List.all_nil, Bool.and_true, if_true]
  rfl

/-- A node without frames is kept, or it is made again from what its children become. -/
theorem returns_update {f frame : Term → Build Term} {S : Term → Term → Prop} {Q : Term → Prop}
    (hframes : t.frames = []) (hf : ∀ c ∈ t.children, Returns (S c) (f c)) (hkept : Q t)
    (hmade : ∀ cs, List.Forall₂ S t.children cs →
      Returns (fun u : Term => ∀ v : Term, v.node = u.node → Q v) (t.rebuild cs [])) :
    Returns Q (t.update (t.children.map f) frame) := by
  unfold update
  refine .bind' fun start => ?_
  rw [List.mapM_map, hframes, List.mapM_nil]
  refine (Returns.mapM (q := S) hf).bind fun cs hcs => ?_
  rw [pure_bind]
  refine .ite (fun _ => .pure hkept) fun _ => ?_
  refine (hmade cs hcs).bind fun u hu => .pure ?_
  split
  · exact hu _ (makeEditable_node start u)
  · exact hu u rfl

/-- Where children always become something, the node is kept, or it is always made again. -/
theorem always_update {f frame : Term → Build Term} {S : Term → Term → Prop} {Q : Term → Prop}
    (hframes : t.frames = []) (hf : ∀ c ∈ t.children, Always (f c) (S c)) (hkept : Q t)
    (hmade : ∀ cs, List.Forall₂ S t.children cs →
      Always (t.rebuild cs []) fun u => ∀ v : Term, v.node = u.node → Q v) :
    Always (t.update (t.children.map f) frame) Q := by
  unfold update
  refine Always.bind (P := fun _ => True) (fun n => ⟨n, n, rfl, trivial⟩) fun start _ => ?_
  rw [List.mapM_map, hframes, List.mapM_nil]
  refine (Always.mapM (S := S) hf).bind fun cs hcs => ?_
  rw [pure_bind]
  split
  · exact .pure hkept
  · refine (hmade cs hcs).bind fun u hu => .pure ?_
    split
    · exact hu _ (makeEditable_node start u)
    · exact hu u rfl

/-- A node with a child or a frame that is no longer the same is made again. -/
theorem gives_update {below : List (Build Term)} {frame : Term → Build Term} {n : Nat}
    {C : Nat → List Term → Prop} {F : Nat → List (Term × Term) → Prop} {Q : Nat → Term → Prop}
    (hmono : ∀ {k m us}, k ≤ m → C k us → C m us) (hc : ∀ k, n ≤ k → Gives k C (below.mapM id))
    (hf : ∀ k, n ≤ k → Gives k F (t.frames.mapM fun v => do
      let node ← liftM (var v)
      return (node, ← frame node)))
    (hmoved : ∀ k us es, C k us → F k es →
      (allSame t.children us && es.all fun e => e.1.same e.2) = false)
    (hmade : ∀ k us es, n ≤ k → C k us → F k es →
      Gives k (fun m u => ∀ v : Term, v.node = u.node → v.mark.id = u.mark.id → Q m v)
        (t.rebuild us (es.map (·.2)))) :
    Gives n Q (t.update below frame) := by
  unfold update
  refine Gives.bind (p := fun _ _ => True) ⟨n, n, rfl, Nat.le_refl n, trivial⟩ fun k start hk _ => ?_
  refine (hc k hk).bind fun k₁ us hk₁ hus => ?_
  have hk := Nat.le_trans hk hk₁
  refine (hf k₁ hk).bind fun k₂ es hk₂ hes => ?_
  have hus := hmono hk₂ hus
  rw [if_neg (by rw [hmoved k₂ us es hus hes]; exact Bool.false_ne_true)]
  refine (hmade k₂ us es (Nat.le_trans hk hk₂) hus hes).bind fun m u _ hu => .pure ?_
  split
  · exact hu _ (makeEditable_node start u) (makeEditable_id start u)
  · exact hu u rfl rfl

section Step
variable {m : Type → Type} [Monad m] [MonadLiftT Build m]

theorem replaceDown_step (visit : Term → m (Option Term)) (t : Term) : t.replaceDown visit = (do
    match ← visit t with
    | some t' => return t'
    | none => t.update (t.children.map (replaceDown visit)) fun v => return (← visit v).getD v) :=
  fold_eq _ t

theorem replaceUp_step (visit : Term → m Term) (t : Term) : t.replaceUp visit = (do
    visit (← t.update (t.children.map (replaceUp visit)) visit)) := by
  rw [replaceUp, fold_eq]

end Step

section Replace
variable {visit : Term → Build (Option Term)} (hother : ∀ u, u.isVar = false → visit u = pure none)
include hother

theorem replaceDown_eq (h : t.isVar = false) : replaceDown visit t =
    t.update (t.children.map (replaceDown visit)) fun v => return (← visit v).getD v := by
  rw [replaceDown, fold_eq, ← replaceDown, hother t h, pure_bind]

theorem replaceDown_of_isGround (ht : t.isGround) : replaceDown visit t = pure t := by
  induction t using Term.induction with
  | h t ih =>
    obtain ⟨hvar, hchildren, hframes⟩ := isGround_iff.mp ht
    rw [replaceDown_eq hother hvar]
    exact update_eq_self hframes fun c hc => ih c hc (hchildren c hc)

end Replace

/-! ### Instances -/

section Substitute
variable {value : Var → Option Term}

theorem substitute_eq (h : t.isVar = false) : t.substitute value =
    t.update (t.children.map (substitute value)) fun u => return (u.asVar?.bind value).getD u :=
  replaceDown_eq (fun u hu => by rw [asVar?_eq_none hu]; rfl) h

theorem substitute_of_isGround (h : t.isGround) : t.substitute value = pure t :=
  replaceDown_of_isGround (fun u hu => by rw [asVar?_eq_none hu]; rfl) h

theorem substitute_of_var {v : Var} (hn : t.node = .var v) :
    t.substitute value = pure ((value v).getD t) := by
  rw [substitute, replaceDown, fold_eq, ← replaceDown, asVar?_of_var hn, pure_bind, Option.bind_some]
  cases value v with
  | some u => rfl
  | none =>
    refine update_eq_self (by rw [frames, hn]; rfl) fun c hc => ?_
    rw [children, hn] at hc
    cases hc

end Substitute

theorem tidy_substitute {value : Var → Option Term}
    (hvalue : ∀ v u, value v = some u → Tidy b u) (ht : Tidy b t) :
    Returns (Tidy b) (t.substitute value) := by
  refine tidy_replaceDown (fun u _ => .pure fun u' hu' => ?_) t ht
  obtain ⟨v, -, hv⟩ := Option.bind_eq_some_iff.mp hu'
  exact hvalue v u' hv

theorem tidy_rename {name : Var → Option Var} (ht : Tidy b t) :
    Returns (Tidy b) (t.rename name) := by
  refine tidy_replaceDown (fun u _ => ?_) t ht
  cases u.asVar?.bind name with
  | none => exact .pure fun _ h => by cases h
  | some v =>
    refine (tidy_newVar b v).bind fun w hw => .pure ?_
    rintro _ ⟨⟩
    exact hw

/-- The walks to the two sides of a term meet its nodes in the same way. -/
theorem tidy_side {side : Term → Build Term} (pick : Build Term → Build Term → Build Term)
    (hside : ∀ t, side t = match t.node with
      | .rewrite l r => pick (side l) (side r)
      | _ => t.update (t.children.map side) pure)
    (hpick : ∀ x y : Build Term, Returns (Tidy b) x → (b = true → Returns (Tidy b) y) →
      Returns (Tidy b) (pick x y)) :
    ∀ t, Tidy b t → Returns (Tidy b) (side t) := by
  intro t
  induction t using Term.induction with
  | h t ih =>
    intro ht
    rw [hside]
    split
    · rename_i l r hn
      have hl : l ∈ t.sides b := by cases b <;> simp [sides, hn]
      refine hpick _ _ (ih l (sides_subset hl) (tidy_child ht hl)) fun hb => ?_
      have hr : r ∈ t.sides b := by subst hb; simp [sides, hn]
      exact ih r (sides_subset hr) (tidy_child ht hr)
    · exact tidy_update ht (fun c hc => ih c (sides_subset hc) (tidy_child ht hc))
        fun u hu => .pure (tidy_of_isVar hu)

theorem leftSide_eq (t : Term) : t.leftSide = match t.node with
    | .rewrite l _ => l.leftSide
    | _ => t.update (t.children.map leftSide) pure := by
  rw [leftSide, fold_eq, ← leftSide, children]
  cases t.node <;> rfl

theorem rightSide_eq (t : Term) : t.rightSide = match t.node with
    | .rewrite _ r => r.rightSide
    | _ => t.update (t.children.map rightSide) pure := by
  rw [rightSide, fold_eq, ← rightSide, children]
  cases t.node <;> rfl

theorem tidy_leftSide (ht : Tidy b t) : Returns (Tidy b) t.leftSide :=
  tidy_side (fun x _ => x) leftSide_eq (fun _ _ hx _ => hx) t ht

theorem tidy_rightSide (ht : Tidy true t) : Returns (Tidy true) t.rightSide :=
  tidy_side (fun _ y => y) rightSide_eq (fun _ _ _ hy => hy rfl) t ht

theorem returns_copy (t : Term) : Returns (fun u => u.node = t.node) t.copy := by
  rw [copy]
  exact .ite (fun _ => .pure rfl) fun _ => .bind' fun _ => .pure rfl

theorem tidy_freeze (ht : Tidy b t) : Returns (Tidy b) t.freeze := by
  induction t using Term.induction with
  | h t ih =>
    rw [freeze, fold_eq, ← freeze]
    refine .ite (fun _ => .pure ht) fun _ => ?_
    have hupdate : Returns (Tidy b) (t.update (t.children.map freeze) pure) :=
      tidy_update ht (fun c hc => ih c (sides_subset hc) (tidy_child ht hc))
        fun u hu => .pure (tidy_of_isVar hu)
    refine hupdate.bind fun t' ht' => .ite (fun _ => .pure ht') fun _ => ?_
    have hdone (u : Term) (hu : Tidy b u) :
        Returns (Tidy b) (pure (u.withEditable false) : Build Term) :=
      .pure ((tidy_congr (t := u.withEditable false) (u := u) rfl).mpr hu)
    have hcopy : Returns (Tidy b) t'.copy :=
      (returns_copy t').mono fun u hu => (tidy_congr hu).mpr ht'
    exact .ite (fun _ => hcopy.bind hdone) fun _ => (Returns.pure ht').bind hdone

end RuleCompiler.Term
