import Mathlib.Algebra.GroupWithZero.Nat
import RuleCompiler.Pass.Expansion
import RuleCompiler.Proofs.Builder.Numbers

/-! # Walks that count

A walk from the top down gives a value as long as groups of cells keep variables for frames, and it counts
what its visits count, node by node. -/

namespace RuleCompiler

open Build (Always From Gives)

/-- Computations that count. `Runs n x c Q` says that `x`, run when the next node has the number `n`, gives a
value of which `Q` holds, and counts `c`. -/
class Counting (m : Type → Type) [Monad m] [MonadLiftT Build m] where
  Runs {α : Type} (n : Nat) (x : m α) (c : Nat) (Q : α → Prop) : Prop
  mono {α : Type} {n c : Nat} {x : m α} {P Q : α → Prop} (hx : Runs n x c P) (hPQ : ∀ a, P a → Q a) : Runs n x c Q
  pure {α : Type} {n : Nat} {a : α} {Q : α → Prop} (h : Q a) : Runs n (pure a) 0 Q
  bind {α β : Type} {n c d : Nat} {x : m α} {f : α → m β} {P : α → Prop} {Q : β → Prop} (hx : Runs n x c P)
    (hf : ∀ k a, n ≤ k → P a → Runs k (f a) d Q) : Runs n (x >>= f) (c + d) Q
  lift {α : Type} {n : Nat} {x : Build α} {Q : α → Prop} (hx : Gives n (fun _ => Q) x) : Runs n (liftM x) 0 Q

open Counting (Runs)

/-- What only makes nodes counts nothing. -/
instance : Counting Build where
  Runs n x c Q := c = 0 ∧ Gives n (fun _ => Q) x
  mono hx hPQ := ⟨hx.1, hx.2.mono fun _ a _ => hPQ a⟩
  pure h := ⟨rfl, .pure h⟩
  bind hx hf := by
    obtain ⟨rfl, a, k, hrun, hk, hP⟩ := hx
    obtain ⟨rfl, hgives⟩ := hf k a hk hP
    refine ⟨rfl, ?_⟩
    obtain ⟨b, m, hrun', hm, hQ⟩ := hgives
    exact ⟨b, m, by rw [Build.bind_eq hrun, hrun'], Nat.le_trans hk hm, hQ⟩
  lift hx := ⟨rfl, hx⟩

instance : Counting (StateT Nat Build) where
  Runs n x c Q := ∀ s, Gives n (fun _ r => r.2 = s + c ∧ Q r.1) (x.run s)
  mono {α n c x P Q} hx hPQ s := (hx s).mono (p := fun _ (r : α × Nat) => r.2 = s + c ∧ Q r.1) fun _ r _ h =>
    ⟨h.1, hPQ r.1 h.2⟩
  pure h s := .pure ⟨rfl, h⟩
  bind hx hf s := by
    rw [StateT.run_bind]
    refine (hx s).bind fun k r hk hr => (hf k r.1 hk hr.2 r.2).mono fun m r' _ hr' => ⟨?_, hr'.2⟩
    rw [hr'.1, hr.1, Nat.add_assoc]
  lift {α n x Q} hx s := by
    have hrun : StateT.run (liftM x : StateT Nat Build α) s = x >>= fun a => Pure.pure (a, s) := rfl
    rw [hrun]
    exact hx.bind fun k a _ hQ => .pure ⟨rfl, hQ⟩

namespace Counting
variable {m : Type → Type} [Monad m] [LawfulMonad m] [MonadLiftT Build m] [Counting m]
variable {α β : Type} {n : Nat}

/-- A loop over a list counts what its steps count. -/
theorem mapM {S : α → β → Prop} {f : α → m β} {count : α → Nat} :
    ∀ {l : List α} {n : Nat}, (∀ a ∈ l, ∀ k, n ≤ k → Runs k (f a) (count a) (S a)) →
      Runs n (l.mapM f) (l.map count).sum (List.Forall₂ S l)
  | [], n, _ => by
    rw [List.mapM_nil]
    exact Counting.pure .nil
  | a :: l, n, h => by
    rw [List.mapM_cons, List.map_cons, List.sum_cons]
    refine Counting.bind (h a List.mem_cons_self n (Nat.le_refl n)) fun k b hk hb => ?_
    have hrest : Runs k (l.mapM f) (l.map count).sum (List.Forall₂ S l) :=
      mapM fun c hc j hj => h c (List.mem_cons_of_mem a hc) j (Nat.le_trans hk hj)
    have hcons : Runs k (do return b :: (← l.mapM f)) ((l.map count).sum + 0) (List.Forall₂ S (a :: l)) :=
      Counting.bind hrest fun _ _ _ hbs => Counting.pure (.cons hb hbs)
    exact hcons

end Counting

namespace Term

/-- From the number `n` on, the property passes from terms on to their parts, and to what is made of terms that
have it. -/
structure Spreads (n : Nat) (P : Term → Prop) : Prop where
  child : ∀ {t c : Term}, P t → c ∈ t.children → P c
  new : ∀ {k : Nat} {m : Node Term}, n ≤ k → (∀ c ∈ m.children, P c) → From k (fun _ => P) (new m)
  edited : ∀ {start : Nat} {t u : Term}, n ≤ start → P t → t.isEditable → P u → P (makeEditable start u)

variable {N n : Nat} {P : Term → Prop} {t : Term}

theorem spreads_true : Spreads 0 fun _ => True where
  child _ _ := trivial
  new _ _ := grows_new _ _
  edited _ _ _ _ := trivial

theorem Spreads.kept (hP : Spreads N P) : Kept N (fun _ => P) fun _ => True where
  mono _ h := h
  part h _ hc := hP.child h hc
  frame _ _ := trivial
  var _ _ := trivial
  newVar hk _ := hP.new hk (List.forall_mem_nil _)
  new hk _ hc _ := hP.new hk hc

/-- A group of cells is made again where it takes in what its frames become, and any other node in any case. -/
theorem Spreads.gives_rebuild (hP : Spreads N P) (hn : N ≤ n) (ht : P t) {cs fs : List Term} (hcs : ∀ c ∈ cs, P c)
    (hfs : ∀ f ∈ fs, P f)
    (hcells : ∀ parts vs, t.node = .cells parts vs → ∀ f ∈ fs, f.isJoinable) :
    Gives n (fun _ => P) (t.rebuild cs fs) := by
  have hends : Always (t.rebuild cs fs) fun _ => True := by
    by_cases hgroup : ∃ parts vs, t.node = .cells parts vs
    · obtain ⟨parts, vs, hnode⟩ := hgroup
      unfold rebuild
      rw [hnode]
      exact ends_cellsFrom _ (hcells parts vs hnode)
    · exact ends_rebuild_other (fun parts vs hnode => hgroup ⟨parts, vs, hnode⟩) cs fs
  have hfrom : From n (fun _ => P) (t.rebuild cs fs) := by
    refine kept_rebuild hP.kept hn hcs hfs (fun _ => ht) fun hchoice => ?_
    unfold rebuild
    cases hnode : t.node with
    | rewrite l r =>
      rcases cs with _ | ⟨l', _ | ⟨r', _ | _⟩⟩
      · exact .pure ht
      · exact .pure ht
      · exact hP.new hn hcs
      · exact .pure ht
    | disjunction branches =>
      refine hP.new hn fun c hc => ?_
      obtain ⟨e, he, rfl⟩ := List.mem_map.mp hc
      obtain ⟨i, hi, rfl⟩ := List.getElem_of_mem he
      rw [List.getElem_zipWith]
      exact hcs _ (List.getElem_mem _)
    | rightSides byRule =>
      refine hP.new hn fun c hc => ?_
      obtain ⟨o, ho, hc⟩ := List.mem_filterMap.mp hc
      cases hc
      exact hcs c (mem_refill ho)
    | _ => simp [hnode, Node.isChoice] at hchoice
  exact (Gives.of_always hfrom hends).mono fun _ _ _ h => h.1

/-- A node is made again from what its children and its frames become, unless these stay the same. -/
theorem Spreads.update {m : Type → Type} [Monad m] [LawfulMonad m] [MonadLiftT Build m] [Counting m]
    (hP : Spreads N P) (hn : N ≤ n) (ht : P t) {f frame : Term → m Term} {count : Term → Nat}
    (hf : ∀ c ∈ t.children, ∀ k, n ≤ k → Runs k (f c) (count c) P)
    (hframe : ∀ v ∈ t.frames, ∀ u, u.node = .var v → P u → ∀ k, n ≤ k →
      Runs k (frame u) 0 fun g => P g ∧ ∀ parts vs, t.node = .cells parts vs → g.isJoinable) :
    Runs n (t.update (t.children.map f) frame) (t.children.map count).sum P := by
  have hsum : (t.children.map count).sum = 0 + ((t.children.map count).sum + (0 + 0)) := by omega
  unfold Term.update
  rw [hsum]
  have hstart : Runs n (liftM Build.nextId : m Nat) 0 (n ≤ ·) :=
    Counting.lift ⟨n, n, rfl, Nat.le_refl n, Nat.le_refl n⟩
  refine Counting.bind hstart fun k start hk hstart => ?_
  rw [List.mapM_map]
  have hchildren : Runs k (t.children.mapM (id ∘ f)) (t.children.map count).sum
      (List.Forall₂ (fun _ => P) t.children) :=
    Counting.mapM fun c hc j hj => hf c hc j (Nat.le_trans hk hj)
  refine Counting.bind hchildren fun k₁ cs hk₁ hcs => ?_
  have hk := Nat.le_trans hk hk₁
  let S (_ : Var) (e : Term × Term) : Prop := P e.2 ∧ ∀ parts vs, t.node = .cells parts vs → e.2.isJoinable
  have hstep : ∀ v ∈ t.frames, ∀ j, k₁ ≤ j → Runs (m := m) j (do
      let node ← liftM (var v)
      return (node, ← frame node)) 0 (S v) := by
    intro v hv j hj
    have hj := Nat.le_trans hk hj
    have hvar : Gives j (fun _ u => P u ∧ u.node = .var v) (var v) :=
      .of_always (hP.new (Nat.le_trans hn hj) (List.forall_mem_nil _)) (always_new _)
    have hpair := Counting.bind (m := m) (Counting.lift hvar) fun j' node hj' hnode =>
      Counting.bind (hframe v hv node hnode.2 hnode.1 j' (Nat.le_trans hj hj')) fun j'' g _ hg =>
        Counting.pure (m := m) (a := (node, g)) (Q := S v) hg
    exact hpair
  have hframes : Runs (m := m) k₁ (t.frames.mapM fun v => do
      let node ← liftM (var v)
      return (node, ← frame node)) 0 (List.Forall₂ S t.frames) := by
    have hloop := Counting.mapM hstep
    simpa using hloop
  refine Counting.bind hframes fun k₂ es hk₂ hes => ?_
  have hk := Nat.le_trans hk hk₂
  split
  · exact Counting.pure ht
  · have hmade : Gives k₂ (fun _ => P) (t.rebuild cs (es.map (·.2))) := by
      have hall : ∀ g ∈ es.map (·.2), P g ∧ ∀ parts vs, t.node = .cells parts vs → g.isJoinable := by
        intro g hg
        obtain ⟨e, he, rfl⟩ := List.mem_map.mp hg
        obtain ⟨v, -, h⟩ := PairedLists.exists_mem hes.flip he
        exact h
      refine hP.gives_rebuild (Nat.le_trans hn hk) ht (fun c hc => ?_) (fun g hg => (hall g hg).1)
        fun parts vs hnode g hg => (hall g hg).2 parts vs hnode
      obtain ⟨d, -, h⟩ := PairedLists.exists_mem hcs.flip hc
      exact h
    refine Counting.bind (Counting.lift hmade) fun k₃ u _ hu => Counting.pure ?_
    split
    · rename_i hedit
      exact hP.edited (Nat.le_trans hn hstart) ht hedit hu
    · exact hu

/-- A walk from the top down, where the visit of a node answers, or else counts nothing and the node counts what
its children do. -/
theorem Spreads.replaceDown {m : Type → Type} [Monad m] [LawfulMonad m] [MonadLiftT Build m] [Counting m]
    (hP : Spreads N P) {visit : Term → m (Option Term)} {count : Term → Nat} (hvar : ∀ u, u.isVar → count u = 0)
    (hvisit : ∀ u k, N ≤ k → P u → Runs k (visit u) (count u) (fun o => ∃ v, o = some v ∧ P v) ∨
      count u = (u.children.map count).sum ∧ Runs k (visit u) 0 fun o => o = none)
    (hcells : ∀ u ∈ t.nodes, ∀ parts vs, u.node = .cells parts vs → ∀ v ∈ vs, ∀ x k, N ≤ k → x.node = .var v →
      P x → Runs k (visit x) 0 fun o => ∀ g ∈ o, P g ∧ g.isJoinable) (hn : N ≤ n) (ht : P t) :
    Runs n (Term.replaceDown visit t) (count t) P := by
  induction t using Term.induction generalizing n with
  | h t ih =>
    rw [Term.replaceDown, fold_eq, ← Term.replaceDown]
    rcases hvisit t n hn ht with hanswer | ⟨hcount, hnone⟩
    · rw [← Nat.add_zero (count t)]
      refine Counting.bind hanswer ?_
      rintro k _ hk ⟨v, rfl, hv⟩
      exact Counting.pure hv
    · rw [hcount, ← Nat.zero_add (t.children.map count).sum]
      refine Counting.bind hnone fun k o hk ho => ?_
      subst ho
      have hk := Nat.le_trans hn hk
      refine hP.update hk ht (fun c hc j hj => ?_) fun v hv u hu hPu j hj => ?_
      · exact ih c hc (fun u hu => hcells u (nodes_child hc hu)) (Nat.le_trans hk hj) (hP.child ht hc)
      · have hj := Nat.le_trans hk hj
        have hanswer : Runs j (visit u) 0 fun o => ∀ g ∈ o, P g ∧
            ∀ parts vs, t.node = .cells parts vs → g.isJoinable := by
          by_cases hgroup : ∃ parts vs, t.node = .cells parts vs
          · obtain ⟨parts, vs, hnode⟩ := hgroup
            rw [frames, hnode] at hv
            refine Counting.mono (hcells t t.self_mem_nodes parts vs hnode v hv u j hj hu hPu) fun o ho g hg => ?_
            exact ⟨(ho g hg).1, fun _ _ _ => (ho g hg).2⟩
          · rcases hvisit u j hj hPu with hsome | ⟨-, hnone⟩
            · rw [hvar u (by rw [isVar, hu]; rfl)] at hsome
              refine Counting.mono hsome ?_
              rintro _ ⟨g, rfl, hg⟩ _ ⟨⟩
              exact ⟨hg, fun parts vs hnode => absurd ⟨parts, vs, hnode⟩ hgroup⟩
            · refine Counting.mono hnone ?_
              rintro _ rfl g hg
              cases hg
        refine Counting.bind hanswer fun _ o _ ho => Counting.pure ?_
        cases o with
        | none => exact ⟨hPu, fun _ _ _ => by rw [Option.getD_none, isJoinable, hu]⟩
        | some g => exact ho g rfl

end Term

end RuleCompiler
