import RuleCompiler.Proofs.Keeping.Memory

/-! # Nodes made again with their flags

A node whose children are replaced is kept, or it is made again and then marked as editable if it replaces
an editable one. Nobody else has come to hold it by then, so its mark is in nobody else's flags. -/

namespace RuleCompiler

open Build (Leads)
open Memory (Has)

/-- A property that is handed down to the children, and that a node has as soon as they do unless it is
editable. -/
structure Term.Hereditary (R : Term → Prop) : Prop where
  child {t c : Term} (h : R t) (hc : c ∈ t.children) : R c
  of_children {t : Term} (hedit : t.isEditable = false) (h : ∀ c ∈ t.children, R c) : R t

variable {R : Term → Prop} {t u : Term} {i j : Memory}

theorem Term.returns_new_frozen (n : Node Term) :
    Returns (fun t => t.node = n ∧ t.isEditable = false) (Term.new n) := by
  unfold Term.new
  exact .ite (fun _ => .pure ⟨rfl, rfl⟩) fun _ => .bind' fun _ => .pure ⟨rfl, rfl⟩

namespace Memory

theorem leads_new_of (hR : Term.Hereditary R) {m : Node Term} (hc : ∀ c ∈ m.children, i.Has c ∧ R c) :
    Leads i (fun j t => (j.Has t ∧ R t) ∧ t.node = m) (Term.new m) := by
  refine ((leads_new fun c hm => (hc c hm).1).and_returns (Term.returns_new_frozen m)).mono fun j t _ h => ?_
  refine ⟨⟨h.1, hR.of_children h.2.2 fun c hm => ?_⟩, h.2.1⟩
  rw [Term.children, h.2.1] at hm
  exact (hc c hm).2

theorem keeps_of (hR : Term.Hereditary R) (i : Memory) : Keeps i (fun j t => j.Has t ∧ R t) fun _ => True where
  mono hij h := ⟨h.1.mono hij, h.2⟩
  part h _ hc := ⟨h.1.child hc, hR.child h.2 hc⟩
  frame _ _ := trivial
  var _ _ := trivial
  newVar _ _ := (leads_new_of hR (List.forall_mem_nil _)).mono fun _ _ _ h => h.1
  new _ _ hc _ := (leads_new_of hR hc).mono fun _ _ _ h => h.1

/-- A node is made again over other children. -/
theorem leads_rebuild (hR : Term.Hereditary R) (hleaf : t.node.isLeaf = false) {cs fs : List Term}
    (hlen : cs.length = t.children.length) (hcs : ∀ c ∈ cs, i.Has c ∧ R c) (hfs : ∀ f ∈ fs, i.Has f ∧ R f) :
    Leads i (fun j u => j.Has u ∧ R u) (t.rebuild cs fs) := by
  have hnew {m : Node Term} (hc : ∀ c ∈ m.children, i.Has c ∧ R c) :
      Leads i (fun j u => j.Has u ∧ R u) (Term.new m) := (leads_new_of hR hc).mono fun _ _ _ h => h.1
  refine Term.leads_rebuild_node (keeps_of hR i) (le_refl i) hcs hfs (fun hself => ?_) (fun l r _ hlr => ?_)
    fun m _ _ _ hc => hnew hc
  · rw [hleaf] at hself
    exact (hself.resolve_left Bool.false_ne_true hlen).elim
  · subst hlr
    exact hnew hcs

end Memory

/-- What a node has become: the node itself, if its children are what they were, or a node made again. -/
inductive Keeping.Updated (R : Term → Prop) (start : Nat) (t : Term) (j : Memory) : Term → Prop where
  | kept (h : ∀ c ∈ t.children, ∃ d, (j.Has d ∧ R d) ∧ c.same d) : Updated R start t j t
  | made {v u : Term} (hv : R v) (hu : u = if t.isEditable then v.makeEditable start else v) :
      Updated R start t j u

namespace Keeping
variable {k m : Type → Type} [Monad k] [LawfulMonad k] [Monad m] [LawfulMonad m] [MonadLiftT Keeping k]
  [MonadLiftT Build m] [LawfulMonadLiftT Build m] [Beside k m]

/-- Also what a walk makes of a node is in memory with its flags, as soon as what it makes of the children and
of the frames is. -/
theorem runs_update (hR : Term.Hereditary R) (ht : i.Has t) {fx gx : Term → k Term} {fy gy : Term → m Term}
    (hf : ∀ c ∈ t.children, ∀ j, i ≤ j → Beside.Runs j j (fun j u => j.Has u ∧ R u) (fx c) (fy c))
    (hg : ∀ u j, i ≤ j → u.isVar → j.Has u ∧ R u → Beside.Runs j j (fun j u => j.Has u ∧ R u) (gx u) (gy u)) :
    Beside.Runs i i (fun j u => j.Has u ∧ Updated R i.next t j u) (update t (t.children.map fx) gx)
      (t.update (t.children.map fy) gy) := by
  have hmono {i j : Memory} {u : Term} (hij : i ≤ j) (h : i.Has u ∧ R u) : j.Has u ∧ R u := ⟨h.1.mono hij, h.2⟩
  unfold update Term.update
  refine Beside.bind (le_refl i) (Beside.lift (runs_nextId i)) fun i' start _ ⟨hi, hstart⟩ => ?_
  subst hi hstart
  rw [List.mapM_map, List.mapM_map]
  refine Beside.bind (le_refl i') (Beside.mapM (r := fun j _ u => j.Has u ∧ R u) hmono hf) fun i₁ cs hi₁ hcs => ?_
  let r (j : Memory) (_ : Var) (e : Term × Term) : Prop := j.Has e.2 ∧ R e.2
  have hframes : Beside.Runs i₁ i₁ (fun j => List.Forall₂ (r j) t.frames)
      (t.frames.mapM fun v => do
        let node ← (liftM (term (Term.var v)) : k Term)
        return (node, ← gx node))
      (t.frames.mapM fun v => do
        let node ← (liftM (Term.var v) : m Term)
        return (node, ← gy node)) := by
    refine Beside.mapM (r := r) hmono fun v _ j hj => ?_
    have hvar : Keeping.Runs j j (fun j u => j.Has u ∧ R u ∧ u.node = .var v) (term (Term.var v)) (Term.var v) :=
      runs_term ((Memory.leads_new_of hR (List.forall_mem_nil _)).mono fun _ _ _ h => ⟨h.1.1, h.1.2, h.2⟩)
    refine Beside.bind (le_refl j) (Beside.lift hvar) fun j₁ node hj₁ hnode => ?_
    have hisVar : node.isVar := by rw [Term.isVar, hnode.2.2]; rfl
    refine Beside.bind hj₁ (hg node j₁ (le_trans hi₁ (le_trans hj hj₁)) hisVar ⟨hnode.1, hnode.2.1⟩)
      fun j₂ u hj₂ hu => ?_
    exact Beside.pure (le_trans hj₁ hj₂) hu
  refine Beside.bind hi₁ hframes fun i₂ es hi₂ hes => ?_
  have hi₂ := le_trans hi₁ hi₂
  have hcs : List.Forall₂ (fun _ u => i₂.Has u ∧ R u) t.children cs := hcs.imp fun _ _ => hmono ‹_›
  refine Beside.ite (fun hsame => Beside.pure hi₂ ⟨ht.mono hi₂, .kept fun c hc => ?_⟩) fun hchanged => ?_
  · rw [Bool.and_eq_true] at hsame
    have hsames : List.Forall₂ (fun c u => c.same u) t.children cs :=
      PairedLists.of_zip hcs.length_eq (List.all_eq_true.mp hsame.1)
    obtain ⟨u, -, hu, hcu⟩ := PairedLists.exists_mem (PairedLists.and hcs hsames) hc
    exact ⟨u, hu, hcu⟩
  · have hleaf : t.node.isLeaf = false := by
      refine (Bool.not_eq_true _).mp fun hleaf => hchanged ?_
      have hchildren := Term.children_of_isLeaf hleaf
      have hframes := Term.frames_of_isLeaf hleaf
      rw [hchildren] at hcs
      rw [hframes] at hes
      rw [hchildren, List.forall₂_nil_left_iff.mp hcs, List.forall₂_nil_left_iff.mp hes]
      rfl
    have hall : ∀ c ∈ cs, i₂.Has c ∧ R c := fun c hc => by
      obtain ⟨_, -, h⟩ := PairedLists.exists_mem hcs.flip hc
      exact h
    have hfs : ∀ f ∈ es.map (·.2), i₂.Has f ∧ R f := fun f hf => by
      obtain ⟨e, he, rfl⟩ := List.mem_map.mp hf
      obtain ⟨_, -, h⟩ := PairedLists.exists_mem hes.flip he
      exact h
    have hrebuild := runs_term (Memory.leads_rebuild hR hleaf hcs.length_eq.symm hall hfs)
    refine Beside.bind hi₂ (Beside.lift hrebuild) fun i₃ v hi₃ hv => ?_
    have hi₃ := le_trans hi₂ hi₃
    cases hedit : t.isEditable with
    | true =>
      have hmark := Beside.lift (k := k) (m := m) (runs_makeEditable hi₃ hv.1)
      rw [liftM_pure] at hmark
      exact Beside.mono hmark fun j u _ hu => ⟨hu.1, .made hv.2 (hu.2.trans (if_pos hedit).symm)⟩
    | false => exact Beside.pure hi₃ ⟨hv.1, .made hv.2 (by rw [hedit]; rfl)⟩

end Keeping

/-! ## Copies and frozen terms with their flags

Copies are new nodes and take their marks with them. A node is no longer marked only where nobody else can
reach it: it was made on the way, or it is a copy that has just been made. So nothing that has computed flags
from those of the node is left behind with what they were. -/

variable {b : Memory} {α β : Type}

namespace Keeping

/-- What the flags tell of editable nodes is so. -/
theorem runs_touching {p : Memory → β → Prop} {f : Bool → Keeping β} {y : Build β} (ht : i.Has t)
    (hf : Runs b i p (f t.touchesEditable) y) : Runs b i p (touchesEditable t >>= f) y := by
  have hflags : ((i.cache.get t).isEditable || (i.cache.get t).containsEditable) = t.touchesEditable := by
    rw [ht.get_eq, Term.touchesEditable_eq]
    rfl
  have hrun : (touchesEditable t >>= f) i.cache i.next = f t.touchesEditable i.cache i.next := by
    rw [← hflags]
    rfl
  unfold Runs
  rw [hrun]
  exact hf

theorem runs_touching_state {σ : Type} {p : Memory → β → Prop} {f : Bool → StateT σ Keeping β} {y : StateT σ Build β}
    (ht : i.Has t) (hf : Beside.Runs b i p (f t.touchesEditable) y) :
    Beside.Runs b i p ((liftM (touchesEditable t) : StateT σ Keeping Bool) >>= f) y :=
  fun s => runs_touching (f := fun e => f e s) ht (hf s)

theorem hereditary_true : Term.Hereditary fun _ => True := ⟨fun _ _ => trivial, fun _ _ => trivial⟩

/-- `runs_update` where nothing else is known of what the children become. -/
theorem runs_update_has {k m : Type → Type} [Monad k] [LawfulMonad k] [Monad m] [LawfulMonad m] [MonadLiftT Keeping k]
    [MonadLiftT Build m] [LawfulMonadLiftT Build m] [Beside k m] (ht : i.Has t) {fx gx : Term → k Term}
    {fy gy : Term → m Term} (hf : ∀ c ∈ t.children, ∀ j, i ≤ j → Beside.Runs j j Has (fx c) (fy c))
    (hg : ∀ u j, i ≤ j → u.isVar → j.Has u → Beside.Runs j j Has (gx u) (gy u)) :
    Beside.Runs i i Has (update t (t.children.map fx) gx) (t.update (t.children.map fy) gy) := by
  have hand {j j' : Memory} {x : k Term} {y : m Term} (h : Beside.Runs j j' Has x y) :
      Beside.Runs j j' (fun j u => j.Has u ∧ True) x y := Beside.mono h fun _ _ _ hu => ⟨hu, trivial⟩
  exact Beside.mono (runs_update hereditary_true ht (fun c hc j hj => hand (hf c hc j hj))
    fun u j hj hvar hu => hand (hg u j hj hvar hu.1)) fun _ _ _ hu => hu.1

/-- Copies are in memory with their flags. -/
theorem runs_copy (ht : i.Has t) : Runs i i (fun j u => j.Has u ∧ u.node = t.node ∧ u.isEditable = t.isEditable ∧
    (t.isCanonical = false → i.next ≤ u.mark.id)) (term t.copy) t.copy :=
  runs_term (Memory.leads_copy ht)

theorem runs_deepCopy (ht : i.Has t) : Runs i i Has (deepCopy t) t.deepCopy := by
  induction t using Term.induction generalizing i with
  | h t ih =>
    rw [deepCopy, Term.deepCopy, Term.fold_eq, Term.fold_eq, ← deepCopy, ← Term.deepCopy]
    refine runs_touching ht (Beside.ite (k := Keeping) (m := Build) (fun _ => .pure (le_refl i) ht) fun _ => ?_)
    have hupdate : Runs i i Has (update t (t.children.map deepCopy) pure)
        (t.update (t.children.map Term.deepCopy) pure) :=
      runs_update_has (k := Keeping) (m := Build) ht (fun c hc j hj => ih c hc ((ht.child hc).mono hj))
        fun _ j _ _ hu => Beside.pure (le_refl j) hu
    refine .bind (le_refl i) hupdate fun j u hj hu => ?_
    refine Beside.ite (k := Keeping) (m := Build) (fun _ => ?_) fun _ => .pure hj hu
    exact Beside.weaken hj ((runs_copy (ht.mono hj)).mono fun _ _ _ h => h.1)

/-! ### Frozen terms -/

theorem hereditary_untouched : Term.Hereditary fun t => t.touchesEditable = false where
  child h hc := by
    rw [Term.touchesEditable_eq, Bool.or_eq_false_iff, List.any_eq_false] at h
    exact (Bool.not_eq_true _).mp (h.2 _ hc)
  of_children hedit h := by
    rw [Term.touchesEditable_eq, hedit, Bool.false_or, List.any_eq_false]
    exact fun c hc => by rw [h c hc]; exact Bool.false_ne_true

/-- Nothing is editable in a node that is the same as one in which nothing is. -/
theorem untouched_of_same (ht : i.Has t) (hu : i.Has u) (hsame : t.same u) (h : u.touchesEditable = false) :
    t.touchesEditable = false := by
  unfold Term.same at hsame
  split at hsame
  · rename_i hc
    refine hereditary_untouched.of_children (ht.self.frozen hc) ?_
    rw [Term.children_of_isCanonical hc]
    exact List.forall_mem_nil _
  · rename_i hc
    simp only [Bool.and_eq_true, Bool.not_eq_true', beq_iff_eq] at hsame
    have htu : t = u := by
      rw [← ht.self.node_eq (by simpa using hc), hsame.2, hu.self.node_eq hsame.1]
    exact htu ▸ h

/-- After the children are frozen, nothing but the node itself is editable. -/
theorem untouched_of_updated {start : Nat} (ht : j.Has t)
    (h : Updated (fun t => t.touchesEditable = false) start t j u) : ∀ c ∈ u.children, c.touchesEditable = false := by
  intro c hc
  cases h with
  | kept h =>
    obtain ⟨d, hd, hsame⟩ := h c hc
    exact untouched_of_same (ht.child hc) hd.1 hsame hd.2
  | @made v _ hv hu =>
    refine hereditary_untouched.child hv ?_
    have hnode : u.node = v.node := by
      rw [hu]
      split
      exacts [Term.makeEditable_node start v, rfl]
    rwa [Term.children, ← hnode]

/-- A node that has come to be editable is the one that was there, or it was made on the way. -/
theorem start_le_of_updated {start : Nat} (h : Updated (fun t => t.touchesEditable = false) start t j u)
    (hedit : u.isEditable) (hsame : u.same t = false) : start ≤ u.mark.id := by
  cases h with
  | kept => rw [Term.same_self] at hsame; cases hsame
  | @made v _ hv hu =>
    have hfrozen : v.isEditable = false := by
      rw [Term.touchesEditable_eq, Bool.or_eq_false_iff] at hv
      exact hv.1
    subst hu
    split at hedit
    · rename_i ht
      rw [if_pos ht]
      rcases v.makeEditable_cases start with h | ⟨-, hid, h⟩
      · rw [h, hfrozen] at hedit
        cases hedit
      · rw [h]
        exact hid
    · rw [hfrozen] at hedit
      cases hedit

theorem runs_freeze (ht : i.Has t) :
    Runs i i (fun j u => j.Has u ∧ u.touchesEditable = false) (freeze t) t.freeze := by
  induction t using Term.induction generalizing i with
  | h t ih =>
    rw [freeze, Term.freeze, Term.fold_eq, Term.fold_eq, ← freeze, ← Term.freeze]
    refine runs_touching ht (Beside.ite (k := Keeping) (m := Build) (fun hno => ?_) fun _ => ?_)
    · exact .pure (le_refl i) ⟨ht, by simpa using hno⟩
    have hupdate : Runs i i (fun j u => j.Has u ∧ Updated (fun t => t.touchesEditable = false) i.next t j u)
        (update t (t.children.map freeze) pure) (t.update (t.children.map Term.freeze) pure) :=
      runs_update (k := Keeping) (m := Build) hereditary_untouched ht
        (fun c hc j hj => ih c hc ((ht.child hc).mono hj)) fun _ j _ _ hu => Beside.pure (le_refl j) hu
    refine .bind (le_refl i) hupdate fun j u hj hu => ?_
    have hbelow := untouched_of_updated (ht.mono hj) hu.2
    refine Beside.ite (k := Keeping) (m := Build) (fun hedit => ?_) fun hedit => ?_
    · exact .pure hj ⟨hu.1, hereditary_untouched.of_children (by simpa using hedit) hbelow⟩
    rw [Bool.not_eq_true', Bool.not_eq_false] at hedit
    have hcanonical : u.isCanonical = false := by
      refine (Bool.not_eq_true _).mp fun hc => ?_
      rw [hu.1.self.frozen hc] at hedit
      cases hedit
    have hlast : ∀ j' w, j ≤ j' → j'.Has w ∧ w.node = u.node ∧ i.next ≤ w.mark.id →
        Runs i j' (fun j u => j.Has u ∧ u.touchesEditable = false) (mark w false) (pure (w.withEditable false)) := by
      intro j' w hj' h
      obtain ⟨hw, hnode, hid⟩ := h
      have hwcanonical : w.isCanonical = false := by rwa [Term.isCanonical, hnode]
      refine (runs_mark (le_trans hj hj') hw hwcanonical hid false).mono fun k v _ h => ?_
      obtain ⟨hv, rfl⟩ := h
      refine ⟨hv, ?_⟩
      refine hereditary_untouched.of_children rfl fun c hc => hbelow c ?_
      rwa [Term.children, ← hnode]
    refine Beside.ite (k := Keeping) (m := Build) (fun _ => ?_) fun hsame => ?_
    · refine .bind hj ((runs_copy hu.1).mono fun _ _ _ h => ⟨h.1, h.2.1, ?_⟩) hlast
      exact Nat.le_trans hj.1 (h.2.2.2 hcanonical)
    · refine .bind hj (.pure (le_refl j) ⟨hu.1, rfl, ?_⟩) hlast
      exact start_le_of_updated hu.2 hedit (by simpa using hsame)

/-! ### Terms taken apart -/

theorem runs_unshare (ht : i.Has t) : Beside.Runs i i Has (unshare t) t.unshare := by
  induction t using Term.induction generalizing i with
  | h t ih =>
    have hupdate : Beside.Runs i i Has (update t (t.children.map unshare) pure)
        (t.update (t.children.map Term.unshare) pure) :=
      runs_update_has ht (fun c hc j hj => ih c hc ((ht.child hc).mono hj)) fun _ j _ _ hu =>
        Beside.pure (le_refl j) hu
    have hcopy := Beside.lift (k := StateT (List Nat) Keeping) (m := StateT (List Nat) Build) (runs_deepCopy ht)
    rw [unshare, Term.unshare, Term.fold_eq, Term.fold_eq, ← unshare, ← Term.unshare]
    refine runs_touching_state ht (Beside.ite (fun _ => Beside.pure (le_refl i) ht) fun _ => ?_)
    have hget : Beside.Runs i i (fun j (_ : List Nat) => j = i) (getThe (List Nat) : StateT (List Nat) Keeping _)
        (get : StateT (List Nat) Build _) := fun _ => .pure (le_refl i) rfl
    refine Beside.bind (le_refl i) hget fun j seen _ hj => ?_
    subst hj
    refine Beside.ite (fun _ => hcopy) fun _ => ?_
    have hnote : Beside.Runs j j (fun k (_ : PUnit) => k = j)
        (modifyThe (List Nat) (t.mark.id :: ·) : StateT (List Nat) Keeping _)
        (modify (t.mark.id :: ·) : StateT (List Nat) Build _) := fun _ => .pure (le_refl j) rfl
    refine Beside.ite (fun _ => ?_) fun _ => hupdate
    refine Beside.bind (le_refl j) hnote fun k _ _ hk => ?_
    subst hk
    exact hupdate

theorem runs_unshareAll {ts : List Term} (hts : ∀ t ∈ ts, i.Has t) :
    Runs i i (fun j us => ∀ u ∈ us, j.Has u) (unshareAll ts) (Term.unshareAll ts) := by
  have hall : Beside.Runs i i (fun j => List.Forall₂ (fun _ u => j.Has u) ts) (ts.mapM unshare)
      (ts.mapM Term.unshare) :=
    Beside.mapM (r := fun j _ u => j.Has u) Has.mono fun t ht j hj => runs_unshare ((hts t ht).mono hj)
  refine .bind (le_refl i) (hall []) fun j e hj he => .pure hj fun u hu => ?_
  obtain ⟨_, _, h⟩ := PairedLists.exists_mem he.flip hu
  exact h

end Keeping

end RuleCompiler
