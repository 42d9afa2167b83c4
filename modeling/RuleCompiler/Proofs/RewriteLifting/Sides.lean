import RuleCompiler.Proofs.Builder.Agreement
import RuleCompiler.Proofs.Term.LeftSide
import RuleCompiler.Source.Basic

/-! # Sides of a term

The left and the right side of a term are made by the same walk, which replaces each rewrite by one of its
sides and makes the nodes above it again. What the walk gives depends on the term alone and not on the
numbers of the nodes (`IsSide.beq`): a node above a rewrite is always made again, since it never comes
back as the node that it was. -/

namespace RuleCompiler

open Build (Agree Always From Gives)
open MonadAttach (CanReturn)
open Term (Equal)

/-! ### Nodes made one after the other -/

namespace Term

/-- Whether every node was made after those below it, at a number that `fits` accepts, and cannot be
edited. -/
def isMadeAt (fits : Nat → Bool) : Term → Bool :=
  fold fun t below => !t.isEditable && (t.isCanonical || fits t.mark.id &&
    t.children.all fun c => c.isCanonical || decide (c.mark.id < t.mark.id)) && below.all id

abbrev MadeAt (fits : Nat → Bool) (t : Term) : Prop := t.isMadeAt fits = true

/-- The term was made before the node with the number `n`. -/
abbrev MadeBefore (n : Nat) (t : Term) : Prop := t.MadeAt (decide <| · < n)

variable {fits fits' : Nat → Bool} {t u c : Term} {n k : Nat}

theorem madeAt_iff : t.MadeAt fits ↔ (t.isEditable = false ∧ (t.isCanonical = false →
    fits t.mark.id ∧ ∀ c ∈ t.children, c.isCanonical = false → c.mark.id < t.mark.id)) ∧
      ∀ c ∈ t.children, c.MadeAt fits := by
  rw [MadeAt, isMadeAt, fold_eq, ← isMadeAt]
  cases t.isCanonical <;> simp [MadeAt, imp_iff_or_not, or_comm]

theorem MadeAt.child (h : t.MadeAt fits) (hc : c ∈ t.children) : c.MadeAt fits := by
  rw [madeAt_iff] at h
  exact h.2 c hc

theorem MadeAt.node (h : t.MadeAt fits) : t.isEditable = false ∧ (t.isCanonical = false →
    fits t.mark.id ∧ ∀ c ∈ t.children, c.isCanonical = false → c.mark.id < t.mark.id) := by
  rw [madeAt_iff] at h
  exact h.1

theorem MadeAt.of_children (ht : t.isEditable = false ∧ (t.isCanonical = false →
    fits t.mark.id ∧ ∀ c ∈ t.children, c.isCanonical = false → c.mark.id < t.mark.id))
    (hc : ∀ c ∈ t.children, c.MadeAt fits) : t.MadeAt fits := by
  rw [madeAt_iff]
  exact ⟨ht, hc⟩

theorem MadeAt.mono (h : t.MadeAt fits) (hfits : ∀ i, fits i → fits' i) : t.MadeAt fits' := by
  induction t using Term.induction with
  | h t ih =>
    obtain ⟨hedit, hnode⟩ := h.node
    refine .of_children ⟨hedit, fun hc => ?_⟩ fun c hc => ih c hc (h.child hc)
    exact ⟨hfits _ (hnode hc).1, (hnode hc).2⟩

/-- What stands below a node was made before it. -/
theorem MadeAt.below (h : t.MadeAt fits) (ht : t.isCanonical = false) (hc : c ∈ t.children) :
    c.MadeBefore t.mark.id := by
  have hbefore : ∀ (c : Term) (n : Nat), c.MadeAt fits → (c.isCanonical = false → c.mark.id < n) →
      c.MadeBefore n := by
    intro c
    induction c using Term.induction with
    | h c ih =>
      intro n h hid
      obtain ⟨hedit, hnode⟩ := h.node
      refine .of_children ⟨hedit, fun hc => ⟨decide_eq_true (hid hc), (hnode hc).2⟩⟩ fun d hd => ?_
      cases hcc : c.isCanonical with
      | false => exact ih d hd n (h.child hd) fun hdc => Nat.lt_trans ((hnode hcc).2 d hd hdc) (hid hcc)
      | true =>
        rw [isCanonical] at hcc
        rw [children] at hd
        unfold Node.isCanonical at hcc
        split at hcc <;> simp_all [Node.children]
  exact hbefore c _ (h.child hc) fun hcc => (h.node.2 ht).2 c hc hcc

theorem MadeAt.not_touchesEditable (h : t.MadeAt fits) : t.touchesEditable = false := by
  induction t using Term.induction with
  | h t ih =>
    rw [touchesEditable_eq, h.node.1, Bool.false_or, List.any_eq_false]
    intro c hc
    rw [ih c hc (h.child hc)]
    exact Bool.false_ne_true

/-- The numbers below `b`, and those from `n` to `k`. -/
def isWithin (b n k i : Nat) : Bool := decide (i < b) || (decide (n ≤ i) && decide (i < k))

theorem madeAt_new {b : Nat} (hb : b ≤ n) (hk : n ≤ k) {m : Node Term}
    (h : ∀ c ∈ m.children, c.MadeAt (isWithin b n k)) : From k (fun k => MadeAt (isWithin b n k)) (new m) := by
  unfold new
  split
  · rename_i hm
    refine .pure (.of_children ⟨rfl, fun hc => ?_⟩ h)
    rw [isCanonical, hm] at hc
    cases hc
  · intro u k' hrun
    cases hrun
    refine ⟨Nat.le_succ k, .of_children ⟨rfl, fun _ => ⟨?_, fun c hc hcc => ?_⟩⟩ fun c hc => ?_⟩
    · simp [isWithin, hk]
    · have hfits := ((h c hc).node.2 hcc).1
      simp only [isWithin, Bool.or_eq_true, Bool.and_eq_true, decide_eq_true_eq] at hfits
      show c.mark.id < k
      omega
    · refine (h c hc).mono fun i hi => ?_
      simp only [isWithin, Bool.or_eq_true, Bool.and_eq_true, decide_eq_true_eq] at hi ⊢
      omega

/-- Builders make nodes after those that they are given. -/
theorem kept_madeAt {b : Nat} (hb : b ≤ n) : Kept n (fun k => MadeAt (isWithin b n k)) fun _ => True where
  mono hkm h := h.mono fun i hi => by
    simp only [isWithin, Bool.or_eq_true, Bool.and_eq_true, decide_eq_true_eq] at hi ⊢
    omega
  part h _ hc := h.child hc
  frame _ _ := trivial
  var _ _ := trivial
  newVar hk _ := madeAt_new hb hk (List.forall_mem_nil _)
  new hk _ hc _ := madeAt_new hb hk hc

theorem hasRewrite_eq_false_iff : t.hasRewrite = false ↔
    t.isRewrite = false ∧ ∀ c ∈ t.children, c.hasRewrite = false := by
  refine ⟨fun h => ⟨isRewrite_of_hasRewrite h, fun c hc => hasRewrite_child h hc⟩, fun ⟨hr, hc⟩ => ?_⟩
  cases h : t.hasRewrite with
  | false => rfl
  | true =>
    obtain ⟨c, hm, hcr⟩ := exists_hasRewrite h hr
    rw [hc c hm] at hcr
    cases hcr

theorem hasRewrite_new {m : Node Term} (hm : ∀ l r, m ≠ .rewrite l r)
    (h : ∀ c ∈ m.children, c.hasRewrite = false) : Returns (fun t => t.hasRewrite = false) (new m) := by
  refine (returns_new m).mono fun t ht => hasRewrite_eq_false_iff.mpr ⟨?_, by rwa [children, ht]⟩
  unfold isRewrite
  split
  · exact absurd (ht.symm.trans ‹_›) (hm _ _)
  · rfl

/-- Builders make no rewrites. -/
theorem kept_hasRewrite (n : Nat) : Kept n (fun _ t => t.hasRewrite = false) fun _ => True where
  mono _ h := h
  part h _ hc := hasRewrite_child h hc
  frame _ _ := trivial
  var _ _ := trivial
  newVar _ _ := .of_returns (hasRewrite_new (fun _ _ h => by cases h) (List.forall_mem_nil _)) (grows_new _ _)
  new _ hm hc _ := by
    refine .of_returns (hasRewrite_new (fun _ _ h => ?_) hc) (grows_new _ _)
    subst h
    cases hm

/-! ### Nodes made again -/

/-- Any node but a rewrite is made again with a property that all nodes with such children have. -/
theorem kept_rebuild_node {P : Nat → Term → Prop} {Q : Var → Prop} (h : Kept n P Q) (hk : n ≤ k)
    (hr : t.isRewrite = false) {cs fs : List Term} (hself : t.node.isLeaf ∨ cs.length ≠ t.children.length → P k t)
    (hcs : ∀ c ∈ cs, P k c) (hfs : ∀ f ∈ fs, P k f)
    (hchoice : ∀ m : Node Term, (∀ l r, m ≠ .rewrite l r) → (∀ c ∈ m.children, P k c) → From k P (new m)) :
    From k P (t.rebuild cs fs) := by
  refine (leads_rebuild_node h.keeps hk hcs hfs hself (fun _ _ h => ?_) fun m hm _ _ hc =>
    .of_new (hchoice m hm hc)).from_next
  rw [hr] at h
  cases h

end Term

/-! #### They always are -/

theorem SequenceParts.ends_add (p : SequenceParts) (t : Term) : Always (p.add t) fun _ => True := by
  have hitems : Always p.allItems fun _ => True := by
    unfold allItems
    split
    · exact .pure trivial
    · exact (Term.always_new _).bind fun _ _ => .pure trivial
  unfold add
  split
  · exact .pure trivial
  all_goals exact hitems.bind fun _ _ => .pure trivial

theorem SequenceParts.ends_build (p : SequenceParts) : Always p.build fun _ => True := by
  unfold build
  split
  · exact (Term.always_new _).mono fun _ _ => trivial
  · exact .pure trivial
  · exact (Term.always_new _).mono fun _ _ => trivial

theorem ListParts.ends_addOperand (p : ListParts) (t : Term) : Always (p.addOperand t) fun _ => True := by
  unfold addOperand addBase
  split
  · exact (always_closeRight p).bind fun _ _ => .pure trivial
  · exact .pure trivial

theorem ListParts.ends_concat (p : ListParts) (t : Term) : Always (p.concat t) fun _ => True := by
  unfold concat
  split
  · split
    · dsimp only
      split
      · exact .pure trivial
      · exact (always_closeRight _).bind fun _ _ => .pure trivial
    · exact ends_addOperand p t
  · split
    · exact .pure trivial
    · exact ends_addOperand p t

theorem ListParts.ends_build (p : ListParts) : Always p.build fun _ => True := by
  have hnew (m : Node Term) : Always (Term.new m) fun _ => True := (Term.always_new m).mono fun _ _ => trivial
  unfold build
  split
  · exact .pure trivial
  · split
    · exact .pure trivial
    · exact hnew _
  · split
    · exact .pure trivial
    · exact hnew _
  · exact hnew _

theorem Build.Always.foldlM_ends {α β : Type} {f : β → α → Build β} (h : ∀ b a, Always (f b a) fun _ => True) :
    ∀ (as : List α) (b : β), Always (as.foldlM f b) fun _ => True
  | [], _ => .pure trivial
  | a :: as, b => by
    rw [List.foldlM_cons]
    exact (h b a).bind fun c _ => foldlM_ends h as c

theorem MapParts.ends_build (p : MapParts) : Always p.build fun _ => True := by
  unfold build
  split
  · exact .pure trivial
  · exact (Term.always_new _).mono fun _ _ => trivial

theorem SetParts.ends_build (p : SetParts) : Always p.build fun _ => True := by
  unfold build
  split
  · exact .pure trivial
  · exact (Term.always_new _).mono fun _ _ => trivial

theorem CellParts.ends_build (p : CellParts) : Always p.build fun _ => True := by
  unfold build
  split
  · exact (Term.always_new _).mono fun _ _ => trivial
  · exact (Term.always_new _).mono fun _ _ => trivial

/-- Any node can be made again with other children, as long as its frames stay variables. -/
theorem Term.ends_rebuild (t : Term) (cs : List Term) {vs : List Var} {fs : List Term}
    (hfs : List.Forall₂ (fun v f => f.node = .var v) vs fs) : Always (t.rebuild cs fs) fun _ => True := by
  have hnew (m : Node Term) : Always (new m) fun _ => True := (always_new m).mono fun _ _ => trivial
  unfold rebuild
  split
  · exact hnew _
  · exact hnew _
  · exact (Always.foldlM_ends SequenceParts.ends_add _ _).bind fun p _ => p.ends_build
  · rename_i ops left base _ _
    have hadd (p : ListParts) (c : Term) :
        Always (if ops.isOperator then p.concat c else pure (p.addItem c)) fun _ => True := by
      split
      · exact p.ends_concat c
      · exact .pure trivial
    refine (Always.foldlM_ends hadd _ _).bind fun p _ => ?_
    refine (Always.foldlM_ends ListParts.ends_concat _ _).bind fun p _ => ?_
    exact (Always.foldlM_ends hadd _ _).bind fun p _ => p.ends_build
  · exact MapParts.ends_build _
  · exact SetParts.ends_build _
  · rw [cellsFrom, CellParts.foldlM_concat_vars hfs, pure_bind]
    exact CellParts.ends_build _
  · exact hnew _
  · exact hnew _
  · exact hnew _
  · exact .pure trivial

/-! ### Both sides -/

namespace Side

/-- Every rewrite replaced by the side. -/
def walk : Side → Term → Build Term
  | left => Term.leftSide
  | right => Term.rightSide

variable {s : Side} {t u v l r : Term}

theorem walk_of_rewrite (hn : t.node = .rewrite l r) : s.walk t = s.walk (s.select l r) := by
  cases s with
  | left => rw [walk, Term.leftSide_eq, hn]; rfl
  | right => rw [walk, Term.rightSide_eq, hn]; rfl

theorem walk_of_not_rewrite (h : t.isRewrite = false) : s.walk t = t.update (t.children.map s.walk) pure := by
  have hn : ∀ l r, t.node ≠ .rewrite l r := by
    rintro l r hn
    rw [Term.isRewrite, hn] at h
    cases h
  cases s with
  | left => rw [walk, Term.leftSide_eq]; split <;> simp_all
  | right => rw [walk, Term.rightSide_eq]; split <;> simp_all

theorem select_mem (s : Side) (hn : t.node = .rewrite l r) : s.select l r ∈ t.children := by
  rw [Term.children, hn]
  cases s <;> simp [select, Node.children]

/-- The term `u` is what the side of `t` says, whichever nodes it is made of. -/
inductive IsSide (s : Side) : Term → Term → Prop where
  | kept {t u : Term} (h : t.hasRewrite = false) (hu : u == t) : IsSide s t u
  | side {t u l r : Term} (hn : t.node = .rewrite l r) (h : IsSide s (s.select l r) u) : IsSide s t u
  | made {t u v : Term} {cs fs : List Term} (h : t.hasRewrite) (hr : t.isRewrite = false)
      (hcs : List.Forall₂ (IsSide s) t.children cs)
      (hfs : List.Forall₂ (fun v f => f.node = .var v) t.frames fs) (hv : CanReturn (t.rebuild cs fs) v)
      (hu : u == v) : IsSide s t u

theorem equal_vars {vs : List Var} {fs gs : List Term} (hf : List.Forall₂ (fun v f => f.node = .var v) vs fs)
    (hg : List.Forall₂ (fun v g => g.node = .var v) vs gs) : Equal fs gs :=
  PairedLists.comp (fun _ _ _ h h' => Term.beq_of_node_eq (h.trans h'.symm)) hf.flip hg

/-- What a side says is determined. -/
theorem IsSide.beq (h : IsSide s t u) (h' : IsSide s t v) : u == v := by
  induction t using Term.induction generalizing u v with
  | h t ih =>
    cases h with
    | kept h hu =>
      cases h' with
      | kept _ hv => exact BEq.trans hu (BEq.symm hv)
      | side hn _ =>
        have hr := Term.isRewrite_of_hasRewrite h
        simp [Term.isRewrite, hn] at hr
      | made h' => simp_all
    | side hn h =>
      have hr : t.isRewrite := by rw [Term.isRewrite, hn]
      cases h' with
      | kept h' _ => simp_all [Term.isRewrite_of_hasRewrite h']
      | side hn' h' =>
        cases hn.symm.trans hn'
        exact ih _ (s.select_mem hn) h h'
      | made _ hr' => simp_all
    | @made _ _ w cs fs h hr hcs hfs hv hu =>
      cases h' with
      | kept h' _ => simp_all
      | side hn _ => simp_all [Term.isRewrite]
      | @made _ _ w' cs' fs' _ _ hcs' hfs' hv' hu' =>
        have hmem : List.Forall₂ (fun d c => c ∈ t.children ∧ IsSide s c d) cs t.children :=
          (PairedLists.imp_mem hcs fun c hc _ _ h => ⟨hc, h⟩).flip
        have hequal : Equal cs cs' := PairedLists.comp
          (fun _ c e h (h' : IsSide s c e) => ih c h.1 h.2 h') hmem hcs'
        obtain ⟨n, n', hrun⟩ := hv
        obtain ⟨m, m', hrun'⟩ := hv'
        have hrebuild := Term.agree_rebuild (t := t) hequal (equal_vars hfs hfs')
        exact BEq.trans hu (BEq.trans (hrebuild.of_eq hrun hrun') (BEq.symm hu'))

/-! ### Making sides -/

theorem walk_self (h : t.hasRewrite = false) (n : Nat) : Gives n (fun _ u => u = t) (s.walk t) := by
  induction t using Term.induction generalizing n with
  | h t ih =>
    rw [walk_of_not_rewrite (Term.isRewrite_of_hasRewrite h), Term.update_pure_eq]
    refine Gives.bind (p := fun _ _ => True) ⟨n, n, rfl, Nat.le_refl n, trivial⟩ fun k start _ _ => ?_
    have hchildren : Gives k (fun _ us => List.Forall₂ (fun u c => u = c) us t.children)
        (t.children.mapM s.walk) :=
      Gives.mapM (S := Eq) (R := fun _ u c => u = c) (fun _ h => h) (List.forall₂_same.mpr fun _ _ => rfl)
        fun c hc _ hcd m _ => hcd ▸ ih c hc (Term.hasRewrite_child h hc) m
    refine hchildren.bind fun m us _ hus => ?_
    rw [List.forall₂_eq_eq_eq] at hus
    rw [hus]
    exact Term.gives_settle_same t start m

/-- What the walk from the number `n` makes of a term made before `b`: its side, without rewrites, and
another node where there was a rewrite. -/
structure Made (s : Side) (b n : Nat) (t : Term) (k : Nat) (u : Term) : Prop where
  isSide : IsSide s t u
  hasRewrite : u.hasRewrite = false
  madeAt : u.MadeAt (Term.isWithin b n k)
  moved : t.hasRewrite → t.same u = false

theorem same_of_madeAt {b n k : Nat} (ht : t.isCanonical = false) (hb : b ≤ t.mark.id) (hn : t.mark.id < n)
    (hu : u.MadeAt (Term.isWithin b n k)) : t.same u = false := by
  rw [Term.same, ht, if_neg Bool.false_ne_true]
  cases huc : u.isCanonical with
  | true => rfl
  | false =>
    have hwithin := (hu.node.2 huc).1
    simp only [Term.isWithin, Bool.or_eq_true, Bool.and_eq_true, decide_eq_true_eq] at hwithin
    rw [Bool.not_false, Bool.true_and, beq_eq_false_iff_ne]
    omega

/-- New variables stand for the frames. -/
theorem gives_frames {b n k : Nat} (hb : b ≤ n) (hk : n ≤ k) (t : Term) :
    Gives k (fun k' es => List.Forall₂ (fun v e => e.1 = e.2 ∧ e.2.node = .var v ∧
      e.2.hasRewrite = false ∧ e.2.MadeAt (Term.isWithin b n k')) t.frames es)
      (t.frames.mapM fun v => do
        let node ← Term.var v
        return (node, node)) := by
  have hkept := Term.kept_madeAt hb
  refine (Gives.mapM (S := Eq) (R := fun k' (e : Term × Term) v => e.1 = e.2 ∧ e.2.node = .var v ∧
    e.2.hasRewrite = false ∧ e.2.MadeAt (Term.isWithin b n k'))
    (fun hkm h => ⟨h.1, h.2.1, h.2.2.1, hkept.mono hkm h.2.2.2⟩)
    (List.forall₂_same.mpr fun _ _ => rfl) ?_).mono fun _ es _ hes => hes.flip
  rintro v - _ rfl m hm
  refine Gives.bind (Gives.of_always (hkept.newVar (v := v) (Nat.le_trans hk hm) trivial) (Term.always_new (.var v)))
    fun _ u _ hu => .pure ⟨rfl, hu.2, ?_, hu.1⟩
  exact Term.hasRewrite_eq_false_iff.mpr ⟨by rw [Term.isRewrite, hu.2],
    by rw [Term.children, hu.2]; exact List.forall_mem_nil _⟩

/-- A node without rewrites is made of nodes without rewrites. -/
theorem rebuild_run {b n k k' : Nat} {us fs : List Term} (hb : b ≤ n) (hk : n ≤ k) (hr : t.isRewrite = false)
    (hself : t.node.isLeaf = false) (hlen : us.length = t.children.length)
    (hus : ∀ u ∈ us, u.hasRewrite = false ∧ u.MadeAt (Term.isWithin b n k))
    (hfs : ∀ f ∈ fs, f.hasRewrite = false ∧ f.MadeAt (Term.isWithin b n k))
    (hrun : t.rebuild us fs k = (.ok v, k')) :
    k ≤ k' ∧ v.hasRewrite = false ∧ v.MadeAt (Term.isWithin b n k') := by
  have hno : ¬(t.node.isLeaf ∨ us.length ≠ t.children.length) := by
    rw [hself]
    simp [hlen]
  have hmade := Term.kept_rebuild_node (Term.kept_madeAt hb) hk hr (fun h => absurd h hno)
    (fun u hu => (hus u hu).2) (fun f hf => (hfs f hf).2) (fun m _ hc => Term.madeAt_new hb hk hc) v k' hrun
  have hrewrite := Term.kept_rebuild_node (Term.kept_hasRewrite k) (Nat.le_refl k) hr (fun h => absurd h hno)
    (fun u hu => (hus u hu).1) (fun f hf => (hfs f hf).1)
    (fun m hm hc => .of_returns (Term.hasRewrite_new hm hc) (Term.grows_new m k)) v k' hrun
  exact ⟨hmade.1, hrewrite.2, hmade.2⟩

/-- A node above rewrites is made again from the sides of its children. -/
theorem gives_walk_made {b n : Nat} (ht : t.MadeBefore b) (hb : b ≤ n) (h : t.hasRewrite)
    (hr : t.isRewrite = false)
    (hchildren : ∀ c ∈ t.children, ∀ k, n ≤ k → Gives k (Made s t.mark.id k c) (s.walk c)) :
    Gives n (Made s b n t) (s.walk t) := by
  have hcanonical := Term.isCanonical_of_hasRewrite h
  obtain ⟨hedit, hnode⟩ := ht.node
  have hid : t.mark.id < b := of_decide_eq_true (hnode hcanonical).1
  have hidn : t.mark.id ≤ n := Nat.le_of_lt (Nat.lt_of_lt_of_le hid hb)
  rw [walk_of_not_rewrite hr, Term.update_pure_eq]
  refine Gives.bind (p := fun k _ => n ≤ k) ⟨n, n, rfl, Nat.le_refl n, Nat.le_refl n⟩ fun n' start _ hn' => ?_
  -- what has been made of the children stays apart from the node
  let R (k : Nat) (u c : Term) := IsSide s c u ∧ (u.hasRewrite = false ∧
    u.MadeAt (Term.isWithin t.mark.id n k)) ∧ (c.hasRewrite → c.same u = false)
  have hR {k m : Nat} {u c : Term} (hkm : k ≤ m) (hu : R k u c) : R m u c :=
    ⟨hu.1, ⟨hu.2.1.1, (Term.kept_madeAt hidn).mono hkm hu.2.1.2⟩, hu.2.2⟩
  have hmade : Gives n' (fun k us => List.Forall₂ (R k) us t.children) (t.children.mapM s.walk) := by
    refine Gives.mapM (S := Eq) (R := R) (fun hkm hu => hR hkm hu) (List.forall₂_same.mpr fun _ _ => rfl) ?_
    rintro c hc _ rfl k hk
    refine (hchildren c hc k (Nat.le_trans hn' hk)).mono fun m u _ hu =>
      ⟨hu.isSide, ⟨hu.hasRewrite, hu.madeAt.mono fun i hi => ?_⟩, hu.moved⟩
    simp only [Term.isWithin, Bool.or_eq_true, Bool.and_eq_true, decide_eq_true_eq] at hi ⊢
    omega
  refine hmade.bind fun m us hm hus => ?_
  have hmoved := Term.allSame_of_moved (hus.flip.imp fun _ _ h => h.2.2) (Term.exists_hasRewrite h hr)
  have hnm := Nat.le_trans hn' hm
  refine (gives_frames hidn hnm t).bind fun m' es hm' hes => ?_
  rw [hmoved, Bool.false_and, if_neg Bool.false_ne_true, hedit]
  have hfs : List.Forall₂ (fun v f => f.node = .var v) t.frames (es.map (·.2)) :=
    List.forall₂_map_right_iff.mpr (hes.imp fun _ _ h => h.2.1)
  obtain ⟨v, k, hrun, -⟩ := t.ends_rebuild us hfs m'
  have hleaf : t.node.isLeaf = false := by
    by_contra hleaf
    obtain ⟨c, hc, -⟩ := Term.exists_hasRewrite h hr
    rw [Term.children] at hc
    unfold Node.isLeaf at hleaf
    split at hleaf <;> simp_all [Node.children]
  have hnm' := Nat.le_trans hnm hm'
  obtain ⟨hk, hrewrite, hv⟩ := rebuild_run hidn hnm' hr hleaf hus.length_eq
    (fun u hu => by
      obtain ⟨c, -, hu⟩ := PairedLists.exists_mem hus hu
      exact (hR hm' hu).2.1)
    (fun f hf => by
      obtain ⟨e, he, rfl⟩ := List.mem_map.mp hf
      obtain ⟨v, -, hv⟩ := PairedLists.exists_mem hes.flip he
      exact hv.2.2) hrun
  refine Gives.bind (p := fun k' w => k' = k ∧ w = v) ⟨v, k, hrun, hk, rfl, rfl⟩ fun k' w _ hw => .pure ?_
  obtain ⟨rfl, rfl⟩ := hw
  refine ⟨.made h hr (hus.flip.imp fun _ _ h => h.1) hfs ⟨m', _, hrun⟩ (BEq.refl w), hrewrite, ?_, fun _ => ?_⟩
  · refine hv.mono fun i hi => ?_
    simp only [Term.isWithin, Bool.or_eq_true, Bool.and_eq_true, decide_eq_true_eq] at hi ⊢
    omega
  · exact same_of_madeAt hcanonical (Nat.le_refl _) (Nat.lt_of_lt_of_le hid hb) hv

/-- The sides of a term can always be made. -/
theorem gives_walk (s : Side) (t : Term) : ∀ {b n : Nat}, t.MadeBefore b → b ≤ n → Gives n (Made s b n t) (s.walk t) := by
  induction t using Term.induction with
  | h t ih =>
    intro b n ht hb
    have hwithin {u : Term} {k : Nat} (hu : u.MadeBefore b) : u.MadeAt (Term.isWithin b n k) :=
      hu.mono fun i hi => by rw [Term.isWithin, hi]; rfl
    cases h : t.hasRewrite with
    | false =>
      refine (walk_self h n).mono fun k u _ hu => ?_
      rw [hu]
      exact ⟨.kept h (BEq.refl t), h, hwithin ht, fun h' => by simp [h] at h'⟩
    | true =>
      have hcanonical := Term.isCanonical_of_hasRewrite h
      have hid : t.mark.id < b := of_decide_eq_true (ht.node.2 hcanonical).1
      by_cases hrewrite : ∃ l r, t.node = .rewrite l r
      · obtain ⟨l, r, hn⟩ := hrewrite
        have hmem := s.select_mem hn
        rw [walk_of_rewrite hn]
        refine (ih _ hmem (ht.below hcanonical hmem) (Nat.le_of_lt (Nat.lt_of_lt_of_le hid hb))).mono
          fun k u _ hu => ⟨.side hn hu.isSide, hu.hasRewrite, hu.madeAt.mono fun i hi => ?_, fun _ => ?_⟩
        · simp only [Term.isWithin, Bool.or_eq_true, Bool.and_eq_true, decide_eq_true_eq] at hi ⊢
          omega
        · exact same_of_madeAt hcanonical (Nat.le_refl _) (Nat.lt_of_lt_of_le hid hb) hu.madeAt
      · have hr : t.isRewrite = false := by
          unfold Term.isRewrite
          split
          · exact absurd ⟨_, _, ‹_›⟩ hrewrite
          · rfl
        refine gives_walk_made ht hb h hr fun c hc k hk => ih c hc (ht.below hcanonical hc) ?_
        omega

end Side

end RuleCompiler
