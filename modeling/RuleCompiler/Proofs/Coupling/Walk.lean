import RuleCompiler.Evaluation
import RuleCompiler.Proofs.Builder.Pairing
import RuleCompiler.Proofs.Substitution

/-! # Two runs of one computation

Two runs of a computation that number their nodes differently do the same, step for step, where nothing but
the numbers of nodes tells their terms apart. A `Coupling` is a relation between terms that two such runs
respect. The second run is ahead by a fixed number of nodes; it may be the first one again, and then the
relation is a property of the nodes that a run meets. -/

namespace RuleCompiler

/-! ### Runs in step -/

namespace Build

/-- Two runs, the first from the number `n` and the second `lead` nodes ahead, take the same steps if they begin at
`base` or later: they make as many nodes, and they end with related values or both with a clash. -/
def InStep (base lead : Nat) {α β : Type} (n : Nat) (R : Nat → α → β → Prop) (x : Build α) (y : Build β) : Prop :=
  base ≤ n → n ≤ (x n).2 ∧ (y (n + lead)).2 = (x n).2 + lead ∧ Outcomes (R (x n).2) (x n).1 (y (n + lead)).1

namespace InStep
variable {base lead n : Nat} {α β γ δ : Type} {R R' : Nat → α → β → Prop} {S : Nat → γ → δ → Prop}
  {x : Build α} {y : Build β}

theorem mono (h : InStep base lead n R x y) (hRS : ∀ m a b, n ≤ m → R m a b → R' m a b) :
    InStep base lead n R' x y := by
  intro hn
  obtain ⟨hle, hlead, hout⟩ := h hn
  exact ⟨hle, hlead, hout.imp fun a b _ => hRS _ a b hle⟩

theorem pure {a : α} {b : β} (h : R n a b) : InStep base lead n R (Pure.pure a) (Pure.pure b) :=
  fun _ => ⟨Nat.le_refl n, rfl, .ok h⟩

theorem throw (c d : Clash) : InStep base lead n R (MonadExcept.throw c : Build α) (MonadExcept.throw d : Build β) :=
  fun _ => ⟨Nat.le_refl n, rfl, .error c d⟩

theorem bind {f : α → Build γ} {g : β → Build δ} (h : InStep base lead n R x y)
    (hf : ∀ m a b, n ≤ m → R m a b → InStep base lead m S (f a) (g b)) :
    InStep base lead n S (x >>= f) (y >>= g) := by
  intro hn
  obtain ⟨hle, hlead, hout⟩ := h hn
  rw [bind_run, bind_run]
  generalize x n = r, y (n + lead) = s at hle hlead hout
  obtain ⟨r, m⟩ := r
  obtain ⟨s, m'⟩ := s
  obtain rfl : m' = m + lead := hlead
  cases hout with
  | ok hab =>
    obtain ⟨hle', hlead', hout⟩ := hf m _ _ hle hab (Nat.le_trans hn hle)
    exact ⟨Nat.le_trans hle hle', hlead', hout⟩
  | error c d => exact ⟨hle, rfl, .error c d⟩

theorem new {Rel : Nat → Term → Term → Prop} {m m' : Node Term} (h : Node.Alike (Rel n) m m')
    (hcanonical : m.isCanonical → Rel n (Term.canonical m) (Term.canonical m'))
    (hmade : base ≤ n → m.isCanonical = false → Rel (n + 1) ⟨{ id := n }, m⟩ ⟨{ id := n + lead }, m'⟩) :
    InStep base lead n Rel (Term.new m) (Term.new m') := by
  unfold Term.new
  rw [h.isCanonical_eq]
  cases hm : m.isCanonical with
  | true => exact pure (hcanonical hm)
  | false => exact fun hn => ⟨Nat.le_succ n, Nat.succ_add n lead ▸ rfl, .ok (hmade hn hm)⟩

end InStep

end Build

open Build (InStep)

/-- How the budgets of two evaluations go together. The first one is followed only if it is left with some
budgets. -/
structure Allowance where
  Rel : Budget → Budget → Prop
  Followed : Budget → Prop
  spend_zero {b : Budget} (hb : b.fuel = 0) (hf : Followed { b with exhausted := true }) : Followed b ∧
    ∀ b', Rel b b' → b'.fuel = 0 ∧ Rel { b with exhausted := true } { b' with exhausted := true }
  spend_succ {b : Budget} {k : Nat} (hb : b.fuel = k + 1) (hf : Followed { b with fuel := k, steps := b.steps + 1 }) :
    Followed b ∧ ∀ b', Rel b b' → ∃ k', b'.fuel = k' + 1 ∧
      Rel { b with fuel := k, steps := b.steps + 1 } { b' with fuel := k', steps := b'.steps + 1 }
  refuse {b : Budget} (hf : Followed { b with tooDeep := true }) : Followed b ∧
    ∀ b', Rel b b' → Rel { b with tooDeep := true } { b' with tooDeep := true }

/-- A relation that two runs respect, the first of which makes nodes from the number `base` on, while the second is
ahead by `lead` nodes. -/
structure Coupling extends Pairing where
  base : Nat
  lead : Nat
  allowance : Allowance
  runs_iff {α β : Type} {n : Nat} {R : Nat → α → β → Prop} {x : Build α} {y : Build β} :
    Runs n R x y ↔ InStep base lead n R x y
  newAny {n : Nat} {m m' : Node Term} (h : Node.Alike (Rel n) m m') : Runs n Rel (Term.new m) (Term.new m')
  canonical {n : Nat} {m m' : Node Term} (hm : m.isCanonical) (h : Node.Alike (Rel n) m m') :
    Rel n (Term.canonical m) (Term.canonical m')
  /-- Where one run has the same node twice the other has too. -/
  same {n : Nat} {t t' u u' : Term} (h : Rel n t u) (h' : Rel n t' u') : t.same t' = u.same u'
  isEditable {n : Nat} {t u : Term} (h : Rel n t u) : t.isEditable = u.isEditable
  makeEditable {n start : Nat} {t u : Term} (hs : base ≤ start) (h : Rel n t u) :
    Rel n (t.makeEditable start) (u.makeEditable (start + lead))

/-- A coupling of runs in step, by a relation that new nodes are in. -/
def Coupling.ofRel (base lead : Nat) (allowance : Allowance) (Rel : Nat → Term → Term → Prop)
    (rel_mono : ∀ {n m t u}, n ≤ m → Rel n t u → Rel m t u) (beq : ∀ {n t u}, Rel n t u → t == u)
    (alike : ∀ {n t u}, Rel n t u → Node.Alike (Rel n) t.node u.node)
    (canonical : ∀ {n m m'}, m.isCanonical → Node.Alike (Rel n) m m' → Rel n (Term.canonical m) (Term.canonical m'))
    (made : ∀ {n m m'}, base ≤ n → m.isCanonical = false → Node.Alike (Rel n) m m' →
      Rel (n + 1) ⟨{ id := n }, m⟩ ⟨{ id := n + lead }, m'⟩)
    (same : ∀ {n t t' u u'}, Rel n t u → Rel n t' u' → t.same t' = u.same u')
    (isEditable : ∀ {n t u}, Rel n t u → t.isEditable = u.isEditable)
    (makeEditable : ∀ {n start t u}, base ≤ start → Rel n t u →
      Rel n (t.makeEditable start) (u.makeEditable (start + lead))) : Coupling :=
  have newAny {n : Nat} {m m' : Node Term} (h : Node.Alike (Rel n) m m') :
      InStep base lead n Rel (Term.new m) (Term.new m') :=
    .new h (canonical · h) fun hn hm => made hn hm h
  { Rel, Runs := fun n R x y => InStep base lead n R x y, rel_mono, beq, alike, mono := .mono, pure := .pure,
    throw := .throw, bind := .bind, new := fun _ => newAny, base, lead, allowance, runs_iff := Iff.rfl, newAny,
    canonical, same, isEditable, makeEditable }

/-- Computations of which two runs can be followed. -/
class Coupled (m : Type → Type) [Monad m] [MonadLiftT Build m] where
  Runs {α β : Type} (C : Coupling) (n : Nat) (R : Nat → α → β → Prop) (x : m α) (y : m β) : Prop
  mono {α β : Type} {C : Coupling} {n : Nat} {R S : Nat → α → β → Prop} {x : m α} {y : m β} (h : Runs C n R x y)
    (hRS : ∀ m a b, n ≤ m → R m a b → S m a b) : Runs C n S x y
  pure {α β : Type} {C : Coupling} {n : Nat} {R : Nat → α → β → Prop} {a : α} {b : β} (h : R n a b) :
    Runs C n R (Pure.pure a) (Pure.pure b)
  bind {α β γ δ : Type} {C : Coupling} {n : Nat} {R : Nat → α → β → Prop} {S : Nat → γ → δ → Prop} {x : m α}
    {y : m β} {f : α → m γ} {g : β → m δ} (h : Runs C n R x y)
    (hf : ∀ m a b, n ≤ m → R m a b → Runs C m S (f a) (g b)) : Runs C n S (x >>= f) (y >>= g)
  lift {α β : Type} {C : Coupling} {n : Nat} {R : Nat → α → β → Prop} {x : Build α} {y : Build β}
    (h : C.Runs n R x y) : Runs C n R (liftM x) (liftM y)

instance : Coupled Build where
  Runs C := C.Runs
  mono := Pairing.mono _
  pure := Pairing.pure _
  bind := Pairing.bind _
  lift := id

/-- What the first evaluation gives goes with a value that the second one gives too, if the first is followed and
whatever budget the second begins with. -/
instance : Coupled Evaluation where
  Runs C n R x y := ∀ b a c k, C.base ≤ n → x b n = (.ok (a, c), k) →
    n ≤ k ∧ (C.allowance.Followed c → C.allowance.Followed b) ∧ ∃ a', R k a a' ∧
      ∀ b', C.allowance.Rel b b' → C.allowance.Followed c →
        ∃ c', y b' (n + C.lead) = (.ok (a', c'), k + C.lead) ∧ C.allowance.Rel c c'
  mono h hRS b a c k hn hrun := by
    obtain ⟨hk, hfollowed, a', hR, hsecond⟩ := h b a c k hn hrun
    exact ⟨hk, hfollowed, a', hRS k a a' hk hR, hsecond⟩
  pure h b a c k hn hrun := by
    cases hrun
    exact ⟨Nat.le_refl _, id, _, h, fun b' hb _ => ⟨b', rfl, hb⟩⟩
  bind {α β γ δ C n R S x y f g} h hf b a c k hn hrun := by
    obtain ⟨⟨a₁, c₁⟩, k₁, hx, hrest⟩ := Build.exists_of_bind hrun
    obtain ⟨hk₁, hfollowed₁, a₁', hR, hsecond₁⟩ := h b a₁ c₁ k₁ hn hx
    obtain ⟨hk, hfollowed, a', hS, hsecond⟩ := hf k₁ a₁ a₁' hk₁ hR c₁ a c k (Nat.le_trans hn hk₁) hrest
    refine ⟨Nat.le_trans hk₁ hk, fun hc => hfollowed₁ (hfollowed hc), a', hS, fun b' hb hc => ?_⟩
    obtain ⟨c₁', hy, hc₁⟩ := hsecond₁ b' hb (hfollowed hc)
    obtain ⟨c', hy', hc'⟩ := hsecond c₁' hc₁ hc
    exact ⟨c', (Build.bind_eq hy).trans hy', hc'⟩
  lift {α β C n R x y} h b a c k hn hrun := by
    obtain ⟨a₁, k₁, hx, hrest⟩ := Build.exists_of_bind hrun
    cases hrest
    obtain ⟨hk, hlead, hout⟩ := C.runs_iff.mp h hn
    rw [hx] at hk hlead hout
    obtain ⟨a', hy, hR⟩ := hout.exists_right
    exact ⟨hk, id, a', hR, fun b' hb _ => ⟨b', Build.bind_eq (Prod.ext hy hlead), hb⟩⟩

namespace Coupled
variable {m : Type → Type} [Monad m] [LawfulMonad m] [MonadLiftT Build m] [Coupled m] {C : Coupling} {n : Nat}
  {α β γ δ : Type} {R : Nat → α → β → Prop}

omit [LawfulMonad m] in
theorem ite {c : Prop} [Decidable c] {x x' : m α} {y y' : m β} (h : c → Runs C n R x y)
    (h' : ¬c → Runs C n R x' y') : Runs C n R (if c then x else x') (if c then y else y') := by
  by_cases hc : c
  · rw [if_pos hc, if_pos hc]; exact h hc
  · rw [if_neg hc, if_neg hc]; exact h' hc

theorem mapM {T : Nat → γ → δ → Prop} (hR : ∀ {k l a b}, k ≤ l → R k a b → R l a b)
    (hT : ∀ {k l c d}, k ≤ l → T k c d → T l c d) {f : γ → m α} {g : δ → m β} {cs : List γ} {ds : List δ}
    (h : List.Forall₂ (T n) cs ds)
    (hstep : ∀ k, n ≤ k → ∀ c ∈ cs, ∀ d, T k c d → Runs C k R (f c) (g d)) :
    Runs C n (fun k => List.Forall₂ (R k)) (cs.mapM f) (ds.mapM g) := by
  suffices hall : ∀ k, n ≤ k → Runs C k (fun k => List.Forall₂ (R k)) (cs.mapM f) (ds.mapM g) from
    hall n (Nat.le_refl n)
  induction h with
  | nil =>
    intro k _
    rw [List.mapM_nil, List.mapM_nil]
    exact Coupled.pure .nil
  | @cons c d cs ds hcd _ ih =>
    intro k hk
    rw [List.mapM_cons, List.mapM_cons]
    refine bind (hstep k hk c List.mem_cons_self d (hT hk hcd)) fun l a b hl hab => ?_
    refine bind (ih (fun k hk c hc => hstep k hk c (List.mem_cons_of_mem _ hc)) l (by omega)) fun i as bs hi has => ?_
    exact Coupled.pure (.cons (hR hi hab) has)

end Coupled

open Coupled (Runs)

/-! ### Updates -/

namespace Term
variable {m : Type → Type} [Monad m] [LawfulMonad m] [MonadLiftT Build m] [Coupled m] {C : Coupling} {n : Nat}
  {t u : Term}

theorem allSame_coupled {ts ts' us us' : List Term} (h : C.RelAll n ts us) (h' : C.RelAll n ts' us') :
    allSame ts ts' = allSame us us' := by
  induction h generalizing ts' us' with
  | nil => rfl
  | cons ht _ ih =>
    cases h' with
    | nil => rfl
    | cons ht' h' =>
      show (_ && allSame _ _) = (_ && allSame _ _)
      rw [ih h']
      exact congrArg (· && _) (C.same ht ht')

/-- Also what frames have become is the same in both runs or in neither. -/
theorem all_same_coupled {fs gs : List (Term × Term)}
    (h : List.Forall₂ (fun p q => C.Rel n p.1 q.1 ∧ C.Rel n p.2 q.2) fs gs) :
    (fs.all fun (old, new) => old.same new) = gs.all fun (old, new) => old.same new := by
  induction h with
  | nil => rfl
  | cons he _ ih =>
    rw [List.all_cons, List.all_cons, ih]
    exact congrArg (· && _) (C.same he.1 he.2)

theorem children_coupled (h : C.Rel n t u) : C.RelAll n t.children u.children := (C.alike h).children

theorem coupled_rebuild {cs ds fs gs : List Term} (ht : C.Rel n t u) (hcs : C.RelAll n cs ds) (hfs : C.RelAll n fs gs) :
    C.Runs n C.Rel (t.rebuild cs fs) (u.rebuild ds gs) :=
  runs_rebuild (fun _ _ _ => id) (fun _ _ => C.canonical rfl (.app .nil)) (fun _ _ _ => C.newAny (.app hcs))
    (fun _ => ht) ((C.alike ht).imp fun _ _ _ => trivial) hcs hfs

/-- Two runs compute new children of related nodes and put them into these. -/
theorem coupled_update {below below' : List (m Term)} {frame frame' : Term → m Term} (ht : C.Rel n t u)
    (hbelow : List.Forall₂ (fun x y => ∀ k, n ≤ k → Runs C k C.Rel x y) below below')
    (hframe : ∀ k v w, n ≤ k → C.Rel k v w → Runs C k C.Rel (frame v) (frame' w)) :
    Runs C n C.Rel (t.update below frame) (u.update below' frame') := by
  have hbase : Coupled.Runs (m := m) C n (fun _ i j => C.base ≤ i ∧ j = i + C.lead) (liftM Build.nextId)
      (liftM Build.nextId) :=
    Coupled.lift (C.runs_iff.mpr fun hn => ⟨Nat.le_refl n, rfl, .ok ⟨hn, rfl⟩⟩)
  unfold update
  refine Coupled.bind hbase fun k start _ hk ⟨hstart, hlead⟩ => ?_
  rw [hlead]
  have hchildren : Runs C k C.RelAll (below.mapM id) (below'.mapM id) :=
    Coupled.mapM (R := C.Rel) (T := fun k x y => ∀ l, k ≤ l → Runs C l C.Rel x y) C.rel_mono
      (fun hkl h l hl => h l (Nat.le_trans hkl hl)) (hbelow.imp fun _ _ h l hl => h l (Nat.le_trans hk hl))
      fun l _ x _ y h => h l (Nat.le_refl l)
  refine Coupled.bind hchildren fun l cs ds hl hcs => ?_
  have hkl := Nat.le_trans hk hl
  let R (k : Nat) (p q : Term × Term) : Prop := C.Rel k p.1 q.1 ∧ C.Rel k p.2 q.2
  have hframes : Runs C l (fun k => List.Forall₂ (R k))
      (t.frames.mapM fun v => do
        let node ← liftM (var v)
        return (node, ← frame node))
      (u.frames.mapM fun v => do
        let node ← liftM (var v)
        return (node, ← frame' node)) := by
    rw [frames_congr (C.beq ht)]
    refine Coupled.mapM (T := fun _ => Eq) (fun hkl h => ⟨C.rel_mono hkl h.1, C.rel_mono hkl h.2⟩) (fun _ h => h)
      (List.forall₂_same.mpr fun _ _ => rfl) fun i hi v _ w hvw => ?_
    rw [hvw]
    refine Coupled.bind (Coupled.lift (Pairing.new_var w)) fun j a b hj hab => ?_
    refine Coupled.bind (hframe j a b (by omega) hab) fun k c d hk hcd => Coupled.pure ⟨C.rel_mono hk hab, hcd⟩
  refine Coupled.bind hframes fun i fs gs hi hfs => ?_
  have hnew : C.RelAll i (fs.map (·.2)) (gs.map (·.2)) :=
    List.forall₂_map_left_iff.mpr (List.forall₂_map_right_iff.mpr (hfs.imp fun _ _ h => h.2))
  have hli := Nat.le_trans hkl hi
  have hself := C.rel_mono hli ht
  have hds := Pairing.RelAll.mono hi hcs
  dsimp only
  rw [allSame_coupled (children_coupled hself) hds, all_same_coupled hfs]
  refine Coupled.ite (fun _ => Coupled.pure hself) fun _ => ?_
  refine Coupled.bind (Coupled.lift (coupled_rebuild hself hds hnew)) fun j t' u' hj ht' => Coupled.pure ?_
  rw [C.isEditable ht]
  split
  · exact C.makeEditable hstart ht'
  · exact ht'

/-- Two runs replace nodes from the top down. -/
theorem coupled_replaceDown {visit visit' : Term → m (Option Term)}
    (hvisit : ∀ k t u, n ≤ k → C.Rel k t u → Runs C k (fun k => Option.Rel (C.Rel k)) (visit t) (visit' u))
    (t : Term) : ∀ {u : Term} {k : Nat}, n ≤ k → C.Rel k t u →
      Runs C k C.Rel (t.replaceDown visit) (u.replaceDown visit') := by
  induction t using Term.induction with
  | h t ih =>
    intro u k hk ht
    rw [replaceDown_step, replaceDown_step]
    refine Coupled.bind (hvisit k t u hk ht) fun l o o' hl ho => ?_
    cases ho with
    | some h => exact Coupled.pure h
    | none =>
      refine coupled_update (C.rel_mono hl ht) ?_ fun i v w hi hvw => ?_
      · refine List.forall₂_map_left_iff.mpr (List.forall₂_map_right_iff.mpr ?_)
        refine PairedLists.imp_mem (children_coupled ht) fun c hc d _ hcd i hi => ?_
        exact ih c hc (by omega) (C.rel_mono (by omega) hcd)
      · refine Coupled.bind (hvisit i v w (by omega) hvw) fun j o o' hj ho => Coupled.pure ?_
        cases ho with
        | some h => exact h
        | none => exact C.rel_mono hj hvw

/-- Two runs replace nodes from the leaves up. -/
theorem coupled_replaceUp {visit visit' : Term → m Term}
    (hvisit : ∀ k t u, n ≤ k → C.Rel k t u → Runs C k C.Rel (visit t) (visit' u)) (t : Term) :
    ∀ {u : Term} {k : Nat}, n ≤ k → C.Rel k t u → Runs C k C.Rel (t.replaceUp visit) (u.replaceUp visit') := by
  induction t using Term.induction with
  | h t ih =>
    intro u k hk ht
    rw [replaceUp_step, replaceUp_step]
    have hupdate : Runs C k C.Rel (t.update (t.children.map (replaceUp visit)) visit)
        (u.update (u.children.map (replaceUp visit')) visit') := by
      refine coupled_update ht ?_ fun i v w hi => hvisit i v w (by omega)
      refine List.forall₂_map_left_iff.mpr (List.forall₂_map_right_iff.mpr ?_)
      refine PairedLists.imp_mem (children_coupled ht) fun c hc d _ hcd i hi => ?_
      exact ih c hc (by omega) (C.rel_mono hi hcd)
    exact Coupled.bind hupdate fun i v w hi => hvisit i v w (by omega)

end Term

/-! ### Substitutions -/

variable {C : Coupling} {n : Nat} {t u : Term}

theorem Term.coupled_substitute {value value' : Var → Option Term}
    (hvalue : ∀ v, Option.Rel (C.Rel n) (value v) (value' v)) (h : C.Rel n t u) :
    C.Runs n C.Rel (t.substitute value) (u.substitute value') := by
  refine coupled_replaceDown (m := Build) (n := n) (fun k t u hk htu => ?_) t (Nat.le_refl n) h
  refine Coupled.pure (m := Build) ?_
  rw [asVar?_congr (C.beq htu)]
  cases u.asVar? with
  | none => exact .none
  | some v =>
    have hv := hvalue v
    dsimp only [Option.bind_some]
    generalize value v = o, value' v = o' at hv
    cases hv with
    | none => exact .none
    | some h => exact .some (C.rel_mono hk h)

theorem Term.coupled_rename (name : Var → Option Var) (h : C.Rel n t u) :
    C.Runs n C.Rel (t.rename name) (u.rename name) := by
  refine coupled_replaceDown (m := Build) (n := n) (fun k t u hk htu => ?_) t (Nat.le_refl n) h
  rw [asVar?_congr (C.beq htu)]
  cases u.asVar?.bind name with
  | none => exact Coupled.pure (m := Build) .none
  | some v => exact Pairing.bind _ (Pairing.new_var v) fun _ _ _ _ h => Pairing.pure _ (.some h)

namespace Substitution

/-- The same variables are bound, to related terms. -/
def Coupled (C : Coupling) (n : Nat) (σ τ : Substitution) : Prop :=
  List.Forall₂ (fun b c => b.1 = c.1 ∧ C.Rel n b.2 c.2) σ.bindings τ.bindings

variable {σ τ : Substitution}

theorem Coupled.mono {m : Nat} (hm : n ≤ m) (h : σ.Coupled C n τ) : σ.Coupled C m τ :=
  h.imp fun _ _ h => ⟨h.1, C.rel_mono hm h.2⟩

theorem Coupled.get? (h : σ.Coupled C n τ) (v : Var) : Option.Rel (C.Rel n) (σ.get? v) (τ.get? v) := by
  obtain ⟨bs⟩ := σ
  obtain ⟨cs⟩ := τ
  unfold Coupled at h
  dsimp only at h
  unfold Substitution.get? SortedList.get?
  induction h with
  | nil => exact .none
  | @cons b c _ _ hbc _ ih =>
    rw [List.find?_cons, List.find?_cons, hbc.1]
    split
    · exact .some hbc.2
    · exact ih

theorem Coupled.insert (h : σ.Coupled C n τ) (v : Var) (ht : C.Rel n t u) : (σ.insert v t).Coupled C n (τ.insert v u) :=
  SortedList.forall₂_put (R := Eq) (fun _ _ _ _ h h' => by rw [h, h']) rfl ht h

theorem Coupled.bind? (h : σ.Coupled C n τ) (v : Var) (ht : C.Rel n t u) :
    Option.Rel (Substitution.Coupled C n) (σ.bind? v t) (τ.bind? v u) := by
  have hv := h.get? v
  unfold Substitution.bind?
  generalize σ.get? v = o, τ.get? v = o' at hv
  cases hv with
  | none => exact .some (h.insert v ht)
  | some hb =>
    dsimp only
    rw [Term.beq_congr (C.beq hb) (C.beq ht)]
    split
    · exact .some h
    · exact .none

theorem Coupled.apply (h : σ.Coupled C n τ) (ht : C.Rel n t u) : C.Runs n C.Rel (σ.apply t) (τ.apply u) :=
  Term.coupled_substitute h.get? ht

theorem Coupled.extend (h : σ.Coupled C n τ) (v : Var) (ht : C.Rel n t u) :
    C.Runs n (Substitution.Coupled C) (σ.extend v t) (τ.extend v u) := by
  unfold Substitution.extend
  refine C.bind (h.apply ht) fun k t u hk ht => ?_
  have hsingle (l : Nat) (hl : k ≤ l) (w : Var) : Option.Rel (C.Rel l) (if w = v then some t else none)
      (if w = v then some u else none) := by
    split
    · exact .some (C.rel_mono hl ht)
    · exact .none
  let B (l : Nat) (b c : Var × Term) : Prop := b.1 = c.1 ∧ C.Rel l b.2 c.2
  have hB {i j : Nat} {b c : Var × Term} (hij : i ≤ j) (hbc : B i b c) : B j b c := ⟨hbc.1, C.rel_mono hij hbc.2⟩
  have hbindings : C.Runs k (fun l => List.Forall₂ (B l))
      (σ.bindings.mapM fun b => return (b.1, ← b.2.substitute fun w => if w = v then some t else none))
      (τ.bindings.mapM fun b => return (b.1, ← b.2.substitute fun w => if w = v then some u else none)) :=
    Coupled.mapM (m := Build) (R := B) (T := B) hB hB (h.mono hk) fun l hl b _ c hbc =>
      C.bind (Term.coupled_substitute (hsingle l hl) hbc.2) fun _ _ _ _ h => C.pure ⟨hbc.1, h⟩
  refine C.bind hbindings fun l bs cs hl hbs => C.pure ?_
  exact Coupled.insert (σ := ⟨bs⟩) (τ := ⟨cs⟩) hbs v (C.rel_mono hl ht)

end Substitution

end RuleCompiler
