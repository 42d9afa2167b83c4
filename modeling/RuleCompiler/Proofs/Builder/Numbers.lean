import RuleCompiler.Proofs.RewriteLifting.Sides

/-! # Numbers only grow

Making nodes never takes a number back, also where a group of cells clashes on the way. -/

namespace RuleCompiler

open Build (Always)
open Term (Grows)

/-! ### Groups of cells -/

/-- Whether a group of cells takes the term in for a frame. -/
def Term.isJoinable (t : Term) : Bool :=
  match t.node with
  | .cells .. | .var _ => true
  | _ => false

theorem CellParts.ends_concat {t : Term} (p : CellParts) (h : t.isJoinable) : Always (p.concat t) fun _ => True := by
  unfold Term.isJoinable at h
  unfold concat
  cases hn : t.node with
  | cells cs frames => exact .pure trivial
  | var v => exact .pure trivial
  | _ =>
    rw [hn] at h
    cases h

theorem Term.ends_cellsFrom (cs : List Cell) {fs : List Term} (h : ∀ f ∈ fs, f.isJoinable) :
    Always (Term.cellsFrom cs fs) fun _ => True := by
  have hall : ∀ (fs : List Term) (p : CellParts), (∀ f ∈ fs, f.isJoinable) →
      Always (fs.foldlM CellParts.concat p) fun _ => True := by
    intro fs
    induction fs with
    | nil => exact fun p _ => .pure trivial
    | cons f fs ih =>
      intro p h
      obtain ⟨hf, hfs⟩ := List.forall_mem_cons.mp h
      rw [List.foldlM_cons]
      exact (p.ends_concat hf).bind fun q _ => ih q hfs
  exact (hall fs _ h).bind fun p _ => p.ends_build

/-- Any node but a group of cells can be made again. -/
theorem Term.ends_rebuild_other {t : Term} (ht : ∀ parts vs, t.node ≠ .cells parts vs) (cs fs : List Term) :
    Always (t.rebuild cs fs) fun _ => True := by
  have hnone (hframes : t.rebuild cs fs = t.rebuild cs []) : Always (t.rebuild cs fs) fun _ => True := by
    rw [hframes]
    exact t.ends_rebuild cs .nil
  cases hnode : t.node with
  | seq items frame =>
    rw [rebuild_seq hnode]
    exact (Always.foldlM_ends SequenceParts.ends_add _ _).bind fun p _ => p.ends_build
  | cells parts vs => exact absurd hnode (ht parts vs)
  | app l args s =>
    refine hnone ?_
    unfold rebuild
    rw [hnode]
    cases l <;> cases cs <;> rfl
  | rewrite l r =>
    refine hnone ?_
    unfold rebuild
    rw [hnode]
    rcases cs with _ | ⟨l', _ | ⟨r', _ | _⟩⟩ <;> rfl
  | _ =>
    refine hnone ?_
    unfold rebuild
    rw [hnode]

/-! ### Numbers after a clash -/

namespace Build
variable {α β γ : Type} {x : Build α}

/-- The computation leaves the number of the next node where it is or raises it, however it ends. -/
def Raises (x : Build α) : Prop := ∀ n, n ≤ (x n).2

namespace Raises

theorem grows (h : Raises x) : Grows x := by
  intro n a k hrun
  have hle := h n
  rw [hrun] at hle
  exact ⟨hle, trivial⟩

theorem of_always (hx : Always x fun _ => True) (h : Grows x) : Raises x := by
  intro n
  obtain ⟨a, k, hrun, -⟩ := hx n
  rw [hrun]
  exact (h n a k hrun).1

theorem pure (a : α) : Raises (Pure.pure a) := fun n => Nat.le_refl n

theorem throw (c : Clash) : Raises (MonadExcept.throw c : Build α) := fun n => Nat.le_refl n

theorem bind {f : α → Build β} (hx : Raises x) (hf : ∀ a, Raises (f a)) : Raises (x >>= f) := by
  intro n
  have hle := hx n
  rw [bind_run]
  generalize x n = r at hle
  obtain ⟨_ | a, k⟩ := r
  · exact hle
  · exact Nat.le_trans hle (hf a k)

theorem mapM {f : α → Build β} : ∀ {l : List α}, (∀ a ∈ l, Raises (f a)) → Raises (l.mapM f)
  | [], _ => by
    rw [List.mapM_nil]
    exact .pure _
  | a :: l, h => by
    rw [List.mapM_cons]
    refine (h a List.mem_cons_self).bind fun b => ?_
    exact (mapM fun c hc => h c (List.mem_cons_of_mem a hc)).bind fun bs => .pure _

theorem foldlM {f : β → α → Build β} (h : ∀ b a, Raises (f b a)) : ∀ (l : List α) (b : β), Raises (l.foldlM f b)
  | [], b => by
    rw [List.foldlM_nil]
    exact .pure b
  | a :: l, b => by
    rw [List.foldlM_cons]
    exact (h b a).bind fun c => foldlM h l c

end Raises

end Build

open Build (Raises)

namespace Term

theorem raises_new (m : Node Term) : Raises (new m) :=
  .of_always ((always_new m).mono fun _ _ => trivial) (grows_new m)

theorem raises_rebuild (t : Term) (cs fs : List Term) : Raises (t.rebuild cs fs) := by
  by_cases hgroup : ∃ parts vs, t.node = .cells parts vs
  · obtain ⟨parts, vs, hnode⟩ := hgroup
    unfold rebuild
    rw [hnode]
    refine (Raises.foldlM (fun p f => ?_) fs _).bind fun p => ?_
    · unfold CellParts.concat
      split
      · exact .pure _
      · exact .pure _
      · exact .throw _
    · refine .of_always p.ends_build fun n => ?_
      exact CellParts.kept_build (kept_true 0) (Nat.zero_le n) ⟨fun _ _ => trivial, fun _ _ => trivial⟩
  · have hends := ends_rebuild_other (t := t) (fun parts vs hnode => hgroup ⟨parts, vs, hnode⟩) cs fs
    exact .of_always hends (grows_rebuild t cs fs)

theorem raises_update {t : Term} {below : List (Build Term)} {frame : Term → Build Term}
    (hbelow : ∀ x ∈ below, Raises x) (hframe : ∀ u, Raises (frame u)) : Raises (t.update below frame) := by
  unfold update
  refine Raises.bind (fun n => Nat.le_refl n) fun start => ?_
  refine (Raises.mapM hbelow).bind fun cs => ?_
  refine (Raises.mapM fun v _ => ?_).bind fun fs => ?_
  · exact Raises.bind (raises_new (.var v)) fun u => (hframe u).bind fun g => .pure _
  · split
    · exact .pure t
    · exact Raises.bind (raises_rebuild t _ _) fun u => .pure _

theorem raises_substitute (value : Var → Option Term) (t : Term) : Raises (t.substitute value) := by
  induction t using Term.induction with
  | h t ih =>
    rw [substitute, replaceDown, fold_eq, ← replaceDown, ← substitute]
    refine Raises.bind (.pure _) fun o => ?_
    split
    · exact .pure _
    · refine raises_update (fun x hx => ?_) fun u => Raises.bind (.pure _) fun _ => .pure _
      obtain ⟨c, hc, rfl⟩ := List.mem_map.mp hx
      exact ih c hc

end Term

end RuleCompiler
