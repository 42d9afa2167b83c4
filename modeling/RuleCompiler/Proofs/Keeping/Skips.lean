import RuleCompiler.Proofs.Keeping.Memory
import RuleCompiler.Proofs.RewriteLifting.Sides

/-! # What flags tell, and walks that skip

Flags are collected from the children, and they tell whether a node or a frame of a kind occurs somewhere
in the term. So a walk that looks for nodes of a kind finds none where the flags tell of none. -/

namespace RuleCompiler

open Term (IsNode)

/-! ### Occurrences -/

namespace Flags

/-- What flags tell of. -/
inductive Kind where
  | var
  | rewrite
  | hole
  | disjunction
  | dontCare
deriving DecidableEq

namespace Kind

/-- Whether the flags tell of something of the kind. -/
def isTold : Kind → Flags → Bool
  | var, f => f.hasVariable
  | rewrite, f => f.hasRewrite
  | hole, f => f.hasHole
  | disjunction, f => f.hasDisjunction
  | dontCare, f => f.hasDontCare

/-- Whether a node or a frame is of the kind. -/
def fits : Kind → Term → Bool
  | var, t => t.isVar
  | rewrite, t => t.isRewrite
  | hole, t => t.isHole
  | disjunction, t => t.isDisjunction
  | dontCare, t => t.asVar?.any Var.isDontCare

variable (k : Kind)

theorem isTold_empty : k.isTold {} = false := by cases k <;> rfl

theorem isTold_or (a b : Flags) : k.isTold (a.or b) = (k.isTold a || k.isTold b) := by cases k <;> rfl

theorem isTold_foldl (fs : List Flags) (a : Flags) :
    k.isTold (fs.foldl Flags.or a) = (k.isTold a || fs.any k.isTold) := by
  induction fs generalizing a with
  | nil => rw [List.foldl_nil, List.any_nil, Bool.or_false]
  | cons f fs ih => rw [List.foldl_cons, ih, isTold_or, List.any_cons, Bool.or_assoc]

theorem isTold_ofVar (v : Var) : k.isTold (ofVar v) = k.fits (Term.canonical (.var v)) := by cases k <;> rfl

theorem isTold_frames (vs : List Var) :
    k.isTold ((vs.map ofVar).foldl Flags.or {}) = (vs.map fun v => Term.canonical (.var v)).any k.fits := by
  rw [isTold_foldl, isTold_empty, Bool.false_or, List.any_map, List.any_map]
  exact congrArg vs.any (funext k.isTold_ofVar)

/-- What a node tells of by itself: what it is, and what its frames are. -/
theorem isTold_ofNode (t : Term) : k.isTold (ofNode t.node) = (k.fits t || t.frameTerms.any k.fits) := by
  have hframes := k.isTold_frames t.frames
  rw [← Term.frameTerms] at hframes
  obtain ⟨mark, node⟩ := t
  cases node with
  | seq items frame => exact hframes.trans (by cases k <;> rfl)
  | cells cs frames => exact hframes.trans (by cases k <;> rfl)
  | _ =>
    cases k <;> simp [isTold, fits, ofNode, ofVar, Node.frames, Term.frameTerms, Term.frames, Term.isVar, Node.isVar,
      Term.isRewrite, Term.isHole, Term.isDisjunction, Term.asVar?]

end Kind

end Flags

namespace Term

variable {t u c : Term} {p : Term → Bool}

theorem anyNode_iff : t.anyNode p ↔ ∃ u ∈ t.subterms, p u := by
  induction t using Term.induction with
  | h t ih =>
    rw [anyNode_eq, subterms_eq, Bool.or_eq_true, Bool.or_eq_true, List.any_eq_true, List.any_eq_true]
    constructor
    · rintro ((h | ⟨c, hc, h⟩) | ⟨f, hf, h⟩)
      · exact ⟨t, List.mem_cons_self, h⟩
      · obtain ⟨u, hu, h⟩ := (ih c hc).mp h
        exact ⟨u, List.mem_cons_of_mem t (List.mem_append_left _ (List.mem_flatMap.mpr ⟨c, hc, hu⟩)), h⟩
      · exact ⟨f, List.mem_cons_of_mem t (List.mem_append_right _ hf), h⟩
    · rintro ⟨u, hu, h⟩
      rcases List.mem_cons.mp hu with rfl | hu
      · exact .inl (.inl h)
      rcases List.mem_append.mp hu with hu | hu
      · obtain ⟨c, hc, hu⟩ := List.mem_flatMap.mp hu
        exact .inl (.inr ⟨c, hc, (ih c hc).mpr ⟨u, hu, h⟩⟩)
      · exact .inr ⟨u, hu, h⟩

theorem isTold_flags (k : Flags.Kind) : k.isTold t.flags = t.anyNode k.fits := by
  induction t using Term.induction with
  | h t ih =>
    have hbelow : (t.children.map flags).any k.isTold = t.children.any (anyNode k.fits) := by
      rw [List.any_map, Bool.eq_iff_iff, List.any_eq_true, List.any_eq_true]
      exact exists_congr fun c => and_congr_right fun hc => by rw [Function.comp_apply, ih c hc]
    rw [flags, fold_eq, ← flags, k.isTold_foldl, hbelow, k.isTold_ofNode, anyNode_eq]
    ac_rfl

/-- A node below is editable if the flags tell so. -/
theorem containsEditable_iff : t.containsEditable ↔ ∃ u, IsNode t.children u ∧ u.isEditable := by
  rw [containsEditable, List.any_eq_true]
  constructor
  · rintro ⟨c, hc, h⟩
    obtain ⟨u, hu, h⟩ := touchesEditable_iff.mp h
    exact ⟨u, isNode_iff.mpr ⟨c, hc, hu⟩, h⟩
  · rintro ⟨u, hu, h⟩
    obtain ⟨c, hc, hu⟩ := isNode_iff.mp hu
    exact ⟨c, hc, touchesEditable_iff.mpr ⟨u, hu, h⟩⟩

theorem hasVariable_flags (t : Term) : t.flags.hasVariable = !t.isGround := by
  rw [isGround, Bool.not_not]
  exact isTold_flags .var

theorem hasRewrite_flags (t : Term) : t.flags.hasRewrite = t.hasRewrite := isTold_flags .rewrite

/-! ### Variables -/

variable {cache : FlagCache}

theorem isExact_child (h : cache.IsExact [t]) (hc : c ∈ t.children) : cache.IsExact [c] := fun d hd =>
  h d ((isNode_single.mpr (.inr (isNode_of_mem hc))).trans hd)

theorem isExact_self (h : cache.IsExact [t]) : cache.get t = t.exactFlags := h t (isNode_of_mem List.mem_cons_self)

theorem filterMap_frameTerms (t : Term) : t.frameTerms.filterMap asVar? = t.frames := by
  rw [frameTerms, List.filterMap_map]
  exact List.filterMap_some

theorem varsKept_eq (cache : FlagCache) (t : Term) : t.varsKept cache =
    t.asVar?.toList ++ if (cache.get t).occurring.hasVariable then t.children.flatMap (varsKept cache) ++ t.frames
      else [] := by
  let visit : Term → List Term := visited fun u => (cache.get u).occurring.hasVariable
  have hbelow : ((t.children.map visit).flatten ++ t.frameTerms).filterMap asVar? =
      t.children.flatMap (varsKept cache) ++ t.frames := by
    rw [List.filterMap_append, filterMap_frameTerms, List.filterMap_flatten, List.map_map]
    rfl
  rw [varsKept, visited, fold_eq, ← visited, List.filterMap_cons]
  split <;> split <;> simp_all [visit]

/-- No occurrence of a variable is missed. -/
theorem varsKept_eq_vars (h : cache.IsExact [t]) : t.varsKept cache = t.vars := by
  induction t using Term.induction with
  | h t ih =>
    have hflag : (cache.get t).occurring.hasVariable = !t.isGround := by
      rw [isExact_self h]
      exact t.hasVariable_flags
    rw [varsKept_eq, hflag]
    cases hvar : t.isVar with
    | true =>
      obtain ⟨v, hn⟩ := exists_var hvar
      rw [vars_of_var hn, asVar?_of_var hn, children, frames, hn]
      split <;> rfl
    | false =>
      rw [asVar?_eq_none hvar]
      cases hground : t.isGround with
      | true => rw [(isGround_iff_vars t).mp hground]; rfl
      | false =>
        have hbelow : t.children.flatMap (varsKept cache) = t.children.flatMap vars :=
          List.flatMap_congr fun c hc => ih c hc (isExact_child h hc)
        rw [vars_of_not_isVar hvar, hbelow]
        rfl

/-! ### Substitutions -/

theorem substituteKept_eq (cache : FlagCache) (value : Var → Option Term) (t : Term) :
    t.substituteKept cache value = if !(cache.get t).occurring.hasVariable then pure t
      else match t.asVar? with
        | some v => pure ((value v).getD t)
        | none => t.update (t.children.map (substituteKept cache value))
            fun node => pure ((node.asVar?.bind value).getD node) := by
  unfold substituteKept
  exact fold_eq _ t

/-- The same is done, node for node. -/
theorem substituteKept_eq_substitute (h : cache.IsExact [t]) (value : Var → Option Term) :
    t.substituteKept cache value = t.substitute value := by
  induction t using Term.induction with
  | h t ih =>
    have hflag : (cache.get t).occurring.hasVariable = !t.isGround := by
      rw [isExact_self h]
      exact t.hasVariable_flags
    rw [substituteKept_eq, hflag, Bool.not_not]
    cases hground : t.isGround with
    | true => rw [substitute_of_isGround hground]; rfl
    | false =>
      rw [if_neg Bool.false_ne_true]
      cases hvar : t.isVar with
      | true =>
        obtain ⟨v, hn⟩ := exists_var hvar
        rw [substitute_of_var hn, asVar?_of_var hn]
      | false =>
        have hbelow : t.children.map (substituteKept cache value) = t.children.map (substitute value) :=
          List.map_congr_left fun c hc => ih c hc (isExact_child h hc)
        rw [substitute, replaceDown_step, asVar?_eq_none hvar, hbelow]
        rfl

end Term

/-! ## Sides of terms with their flags

To take a side of a term is to leave alone what the flags tell of no rewrites in. Walked through instead, such
a part comes out as the node it was, though numbers are spent on its frames. So the nodes made afterwards
have other numbers, and nothing else tells the two ways apart. -/

open Build (Always Gives)
open Term (forall_mem_nodes)

/-! ### Runs that number nodes on their own -/

namespace Build
variable {α β γ δ : Type} {b : Nat} {R : α → β → Prop} {S : γ → δ → Prop} {x : Build α} {y : Build β}

/-- The computations end in the same way, with related values, from whatever numbers they begin at, as long
as these are not below `b`. -/
def AgreeFrom (b : Nat) (R : α → β → Prop) (x : Build α) (y : Build β) : Prop :=
  ∀ k l, b ≤ k → b ≤ l → k ≤ (x k).2 ∧ l ≤ (y l).2 ∧ Outcomes R (x k).1 (y l).1

namespace AgreeFrom

theorem mono {Q : α → β → Prop} (h : AgreeFrom b Q x y) (hQR : ∀ a c, Q a c → R a c) : AgreeFrom b R x y :=
  fun k l hk hl => ⟨(h k l hk hl).1, (h k l hk hl).2.1, (h k l hk hl).2.2.imp fun a c _ => hQR a c⟩

theorem pure {a : α} {c : β} (h : R a c) : AgreeFrom b R (Pure.pure a) (Pure.pure c) :=
  fun k l _ _ => ⟨Nat.le_refl k, Nat.le_refl l, .ok h⟩

theorem throw (c d : Clash) : AgreeFrom b R (MonadExcept.throw c : Build α) (MonadExcept.throw d : Build β) :=
  fun k l _ _ => ⟨Nat.le_refl k, Nat.le_refl l, .error c d⟩

theorem bind {f : α → Build γ} {g : β → Build δ} (hx : AgreeFrom b R x y)
    (hf : ∀ a c, R a c → AgreeFrom b S (f a) (g c)) : AgreeFrom b S (x >>= f) (y >>= g) := by
  intro k l hk hl
  obtain ⟨hk', hl', hout⟩ := hx k l hk hl
  rw [bind_run, bind_run]
  generalize x k = r, y l = s at hk' hl' hout
  obtain ⟨r, k'⟩ := r
  obtain ⟨s, l'⟩ := s
  cases hout with
  | ok h =>
    obtain ⟨hk'', hl'', hout⟩ := hf _ _ h k' l' (Nat.le_trans hk hk') (Nat.le_trans hl hl')
    exact ⟨Nat.le_trans hk' hk'', Nat.le_trans hl' hl'', hout⟩
  | error c d => exact ⟨hk', hl', .error c d⟩

theorem mapM {T : γ → δ → Prop} {f : γ → Build α} {g : δ → Build β} {cs : List γ} {ds : List δ}
    (h : List.Forall₂ T cs ds) (hstep : ∀ c d, T c d → AgreeFrom b R (f c) (g d)) :
    AgreeFrom b (List.Forall₂ R) (cs.mapM f) (ds.mapM g) := by
  induction h with
  | nil => exact .pure .nil
  | @cons c d cs ds hcd _ ih =>
    rw [List.mapM_cons, List.mapM_cons]
    exact (hstep c d hcd).bind fun a e hae => ih.bind fun as es has => .pure (.cons hae has)

theorem ite {c : Prop} [Decidable c] {x' : Build α} {y' : Build β} (h : c → AgreeFrom b R x y)
    (h' : ¬c → AgreeFrom b R x' y') : AgreeFrom b R (if c then x else x') (if c then y else y') := by
  by_cases hc : c
  · rw [if_pos hc, if_pos hc]; exact h hc
  · rw [if_neg hc, if_neg hc]; exact h' hc

/-- One of the two makes no nodes. -/
theorem of_gives {a : α} (hy : ∀ l, Gives l (fun _ c => R a c) y) : AgreeFrom b R (Pure.pure a) y := by
  intro k l _ _
  obtain ⟨c, l', hrun, hl, hR⟩ := hy l
  rw [hrun]
  exact ⟨Nat.le_refl k, hl, .ok hR⟩

end AgreeFrom

end Build

open Build (AgreeFrom)

namespace Term

variable {b : Nat} {t u c t' u' : Term} {cache : FlagCache} {s : Side}

/-- Every node of the term was there before the number `b` came up. -/
abbrev IsOld (b : Nat) (t : Term) : Prop := ∀ c ∈ t.nodes, c.isCanonical = false → c.mark.id < b

/-- A node of both runs, or a node that each of the two made for itself. -/
inductive Twins (b : Nat) : Term → Term → Prop where
  | old (t : Term) (h : t.IsOld b) : Twins b t t
  | made (t u : Term) (hc : t.isCanonical = false) (ht : b ≤ t.mark.id) (hu : b ≤ u.mark.id)
      (hnode : Node.Alike (fun _ _ => True) t.node u.node)
      (hchildren : ∀ p ∈ t.children.zip u.children, Twins b p.1 p.2) : Twins b t u

theorem IsOld.child (h : t.IsOld b) (hc : c ∈ t.children) : c.IsOld b := (forall_mem_nodes.mp h).2 c hc

namespace Twins

theorem of_alike (hc : t.isCanonical = false) (ht : b ≤ t.mark.id) (hu : b ≤ u.mark.id)
    (h : Node.Alike (Twins b) t.node u.node) : Twins b t u :=
  .made t u hc ht hu (h.imp fun _ _ _ => trivial) fun _ hp => (List.forall₂_iff_zip.mp h.children).2 hp

theorem alike (h : Twins b t u) : Node.Alike (Twins b) t.node u.node := by
  cases h with
  | old _ h =>
    refine ((alike_of_beq BEq.rfl).imp fun _ _ _ => trivial).of_children (List.forall₂_same.mpr fun c hc => ?_)
    exact .old c (h.child hc)
  | made _ _ _ _ _ hnode hchildren =>
    exact hnode.of_children (PairedLists.of_zip hnode.children.length_eq hchildren)

theorem beq (h : Twins b t u) : t == u := by
  induction t using Term.induction generalizing u with
  | h t ih =>
    refine beq_of_alike ((h.alike.imp fun _ _ _ => trivial).of_children ?_)
    exact PairedLists.imp_mem h.alike.children fun c hc _ _ hcd => ih c hc hcd

/-- New canonical nodes are the same one. -/
theorem canonical {m n : Node Term} (hm : m.isCanonical) (h : Node.Alike (Twins b) m n) :
    Twins b (Term.canonical m) (Term.canonical n) := by
  have hchildren : m.children = [] := children_of_isCanonical (t := Term.canonical m) hm
  have hnone : List.Forall₂ Eq m.children n.children := by
    have hc := h.children
    rw [hchildren, List.forall₂_nil_left_iff] at hc
    rw [hchildren, hc]
    exact .nil
  obtain rfl : m = n := ((h.imp fun _ _ _ => trivial).of_children hnone).eq
  refine .old _ (forall_mem_nodes.mpr ⟨fun hc => ?_, ?_⟩)
  · rw [isCanonical, hm] at hc
    cases hc
  · rw [children, hchildren]
    exact List.forall_mem_nil _

/-- An old node comes back in both runs or in neither. -/
theorem same_eq (ht : t.IsOld b) (h : Twins b u u') : t.same u = t.same u' := by
  cases h with
  | old => rfl
  | made _ _ hc hu hu' hnode _ =>
    have hc' : u'.isCanonical = false := hnode.isCanonical_eq.trans hc
    unfold same
    rw [hc, hc']
    split
    · rfl
    · rename_i htc
      have hid := ht t t.self_mem_nodes (by simpa using htc)
      have hne : (t.mark.id == u.mark.id) = false := beq_eq_false_iff_ne.mpr (by omega)
      have hne' : (t.mark.id == u'.mark.id) = false := beq_eq_false_iff_ne.mpr (by omega)
      rw [hne, hne']

/-- Marks make no difference, and old nodes are not marked. -/
theorem makeEditable {k l : Nat} (hk : b ≤ k) (hl : b ≤ l) (h : Twins b t u) :
    Twins b (t.makeEditable k) (u.makeEditable l) := by
  cases h with
  | old _ h =>
    have hkept {k : Nat} (hk : b ≤ k) : t.makeEditable k = t := by
      rcases t.makeEditable_cases k with heq | ⟨hc, hid, -⟩
      · exact heq
      · exact absurd (h t t.self_mem_nodes hc) (by omega)
    rw [hkept hk, hkept hl]
    exact .old t h
  | made _ _ hc ht hu hnode hchildren =>
    have halike := (Twins.made t u hc ht hu hnode hchildren).alike
    refine of_alike ?_ ?_ ?_ ?_
    · rwa [isCanonical, makeEditable_node]
    · rwa [makeEditable_id]
    · rwa [makeEditable_id]
    · rwa [makeEditable_node, makeEditable_node]

theorem new {m n : Node Term} (h : Node.Alike (Twins b) m n) : AgreeFrom b (Twins b) (Term.new m) (Term.new n) := by
  unfold Term.new
  rw [h.isCanonical_eq]
  cases hm : m.isCanonical with
  | true => exact .pure (canonical hm h)
  | false => exact fun k l hk hl => ⟨Nat.le_succ k, Nat.le_succ l, .ok (of_alike hm hk hl h)⟩

end Twins

end Term

/-- Twins, and runs that number nodes on their own. -/
def Pairing.twins (b : Nat) : Pairing where
  Rel _ := Term.Twins b
  Runs n R := AgreeFrom b fun a c => ∃ m, n ≤ m ∧ R m a c
  rel_mono _ h := h
  beq := Term.Twins.beq
  alike := Term.Twins.alike
  mono h hRS := h.mono fun a c ⟨m, hm, hR⟩ => ⟨m, hm, hRS m a c hm hR⟩
  pure h := .pure ⟨_, Nat.le_refl _, h⟩
  throw := .throw
  bind h hf := h.bind fun a c ⟨m, hm, hR⟩ => (hf m a c hm hR).mono fun _ _ ⟨k, hk, hS⟩ => ⟨k, Nat.le_trans hm hk, hS⟩
  new _ h := (Term.Twins.new h).mono fun _ _ h => ⟨_, Nat.le_refl _, h⟩

namespace Term

variable {b : Nat} {t u c t' u' : Term} {cache : FlagCache} {s : Side}

theorem agree_rebuild_twins {cs ds fs gs : List Term} (ht : t.IsOld b) (hcs : List.Forall₂ (Twins b) cs ds)
    (hfs : List.Forall₂ (Twins b) fs gs) : AgreeFrom b (Twins b) (t.rebuild cs fs) (t.rebuild ds gs) := by
  have hruns : (Pairing.twins b).Runs 0 (Pairing.twins b).Rel (t.rebuild cs fs) (t.rebuild ds gs) := by
    refine runs_rebuild (fun _ _ _ => id) (fun _ _ => Twins.canonical rfl (.app .nil))
      (fun _ _ _ => (Twins.new (.app hcs)).mono fun _ _ h => ⟨0, Nat.le_refl 0, h⟩) (fun _ => .old t ht) ?_ hcs hfs
    exact (alike_of_beq BEq.rfl).imp fun _ _ _ => trivial
  exact AgreeFrom.mono hruns fun _ _ ⟨_, _, h⟩ => h

theorem allSame_twins {cs ds : List Term} (h : List.Forall₂ (Twins b) cs ds) :
    ∀ {ts : List Term}, (∀ t ∈ ts, t.IsOld b) → allSame ts cs = allSame ts ds := by
  induction h with
  | nil => exact fun _ => rfl
  | cons hcd _ ih =>
    intro ts hts
    cases ts with
    | nil => rfl
    | cons t ts =>
      obtain ⟨ht, hts⟩ := List.forall_mem_cons.mp hts
      show (_ && allSame _ _) = (_ && allSame _ _)
      rw [ih hts]
      exact congrArg (· && _) (hcd.same_eq ht)

/-- A node is made again in both runs or in neither, if what has become of the children are twins. -/
theorem agree_update_twins {below below' : List (Build Term)} (ht : t.IsOld b)
    (h : List.Forall₂ (AgreeFrom b (Twins b)) below below') :
    AgreeFrom b (Twins b) (t.update below pure) (t.update below' pure) := by
  have hnext : AgreeFrom b (fun k l => b ≤ k ∧ b ≤ l) (liftM Build.nextId : Build Nat)
      (liftM Build.nextId : Build Nat) :=
    fun k l hk hl => ⟨Nat.le_refl k, Nat.le_refl l, .ok ⟨hk, hl⟩⟩
  unfold update
  refine hnext.bind fun start start' hstarts => ?_
  obtain ⟨hstart, hstart'⟩ := hstarts
  refine (AgreeFrom.mapM (R := Twins b) h fun _ _ h => h).bind fun cs ds hcs => ?_
  let R (e e' : Term × Term) : Prop := Twins b e.2 e'.2 ∧ e.1 = e.2 ∧ e'.1 = e'.2
  have hframes : AgreeFrom b (List.Forall₂ R)
      (t.frames.mapM fun v => do
        let node ← (liftM (var v) : Build Term)
        return (node, ← (pure node : Build Term)))
      (t.frames.mapM fun v => do
        let node ← (liftM (var v) : Build Term)
        return (node, ← (pure node : Build Term))) := by
    refine AgreeFrom.mapM (T := Eq) (List.forall₂_same.mpr fun _ _ => rfl) fun v _ hv => ?_
    subst hv
    exact (Twins.new .var).bind fun u u' hu => .pure ⟨hu, rfl, rfl⟩
  refine hframes.bind fun fs gs hfs => ?_
  -- what is made of frames are the frames
  have hkept {p : Term × Term → Bool} {fs : List (Term × Term)} (h : ∀ e ∈ fs, e.1 = e.2)
      (hp : ∀ t, p (t, t) = true) : fs.all p = true :=
    List.all_eq_true.mpr fun e he => by
      obtain ⟨u, v⟩ := e
      cases h _ he
      exact hp u
  have hfs₁ : ∀ e ∈ fs, e.1 = e.2 := fun e he => by
    obtain ⟨_, _, h⟩ := PairedLists.exists_mem hfs he
    exact h.2.1
  have hgs₁ : ∀ e ∈ gs, e.1 = e.2 := fun e he => by
    obtain ⟨_, _, h⟩ := PairedLists.exists_mem hfs.flip he
    exact h.2.2
  dsimp only
  rw [allSame_twins hcs fun c hc => ht.child hc, hkept hfs₁ same_self, hkept hgs₁ same_self]
  refine .ite (fun _ => .pure (.old t ht)) fun _ => ?_
  have hnew : List.Forall₂ (Twins b) (fs.map (·.2)) (gs.map (·.2)) :=
    List.forall₂_map_left_iff.mpr (List.forall₂_map_right_iff.mpr (hfs.imp fun _ _ h => h.1))
  refine (agree_rebuild_twins ht hcs hnew).bind fun u v huv => .pure ?_
  split
  · exact huv.makeEditable hstart hstart'
  · exact huv

theorem takeSide_eq (cache : FlagCache) (s : Side) (t : Term) :
    t.takeSide cache s = match t.node, t.children.map (takeSide cache s) with
      | .rewrite l r, [belowLeft, belowRight] =>
        if (cache.get (s.select l r)).occurring.hasRewrite then s.select belowLeft belowRight
        else pure (s.select l r)
      | _, below => t.update below pure := by
  unfold takeSide
  exact fold_eq _ t

theorem takeSide_of_rewrite {l r : Term} (hn : t.node = .rewrite l r) :
    t.takeSide cache s = (s.select l r).sideKept cache s := by
  rw [takeSide_eq, hn, children, hn, sideKept]
  cases s <;> rfl

theorem takeSide_of_not_rewrite (h : t.isRewrite = false) :
    t.takeSide cache s = t.update (t.children.map (takeSide cache s)) pure := by
  rw [takeSide_eq]
  split
  · rename_i hn _
    rw [isRewrite, hn] at h
    cases h
  · rfl

/-- What the flags tell of no rewrite in is left alone or comes out as the node it was. -/
theorem agree_sideKept (hcache : cache.get t = t.exactFlags) (ht : t.IsOld b)
    (h : t.hasRewrite → AgreeFrom b (Twins b) (t.takeSide cache s) (s.walk t)) :
    AgreeFrom b (Twins b) (t.sideKept cache s) (s.walk t) := by
  have hflag : (cache.get t).occurring.hasRewrite = t.hasRewrite := by
    rw [hcache]
    exact t.hasRewrite_flags
  rw [sideKept, hflag]
  cases hr : t.hasRewrite with
  | true => exact h hr
  | false => exact .of_gives fun l => (Side.walk_self hr l).mono fun _ u _ hu => hu ▸ .old t ht

theorem agree_takeSide (hcache : cache.IsExact [t]) (ht : t.IsOld b) :
    AgreeFrom b (Twins b) (t.takeSide cache s) (s.walk t) := by
  induction t using Term.induction with
  | h t ih =>
    have hchild {c : Term} (hc : c ∈ t.children) : AgreeFrom b (Twins b) (c.takeSide cache s) (s.walk c) :=
      ih c hc (isExact_child hcache hc) (ht.child hc)
    cases hr : t.isRewrite with
    | true =>
      obtain ⟨l, r, hn⟩ := exists_sides_of_isRewrite hr
      have hc := s.select_mem hn
      rw [takeSide_of_rewrite hn, Side.walk_of_rewrite hn]
      exact agree_sideKept (isExact_self (isExact_child hcache hc)) (ht.child hc) fun _ => hchild hc
    | false =>
      rw [takeSide_of_not_rewrite hr, Side.walk_of_not_rewrite hr]
      refine agree_update_twins ht (List.forall₂_map_left_iff.mpr (List.forall₂_map_right_iff.mpr ?_))
      exact List.forall₂_same.mpr fun c hc => hchild hc

/-- Taking a side with the flags and walking through everything end in the same way, with equal terms. -/
theorem agree_side (hcache : cache.IsExact [t]) (ht : t.IsOld b) (s : Side) :
    AgreeFrom b (fun u v : Term => u == v) (t.sideKept cache s) (s.walk t) :=
  (agree_sideKept (isExact_self hcache) ht fun _ => agree_takeSide hcache ht).mono fun _ _ h => h.beq

end Term

end RuleCompiler
