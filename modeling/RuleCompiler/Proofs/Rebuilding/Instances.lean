import RuleCompiler.Proofs.Builder.Agreement
import RuleCompiler.Proofs.RewriteLifting.Sides
import RuleCompiler.Proofs.Matching.Instances
import RuleCompiler.Proofs.World

/-! # Instances that are always made again

Applying a substitution keeps a node where the nodes below are still the same, and that goes by numbers. Here
a node is kept where it mentions no bound variable, whatever its number, so equal terms have equal instances.
Where no node is mistaken for another by its number both say the same. -/

namespace RuleCompiler

open Build (Agree From Gives)
open Term (Equal)

namespace Substitution
variable {σ : Substitution} {t u : Term}

/-- Whether the term mentions a bound variable. -/
def touches (σ : Substitution) (t : Term) : Bool := t.vars.any σ.contains

theorem touches_congr (h : t == u) : σ.touches t = σ.touches u := by rw [touches, touches, Term.vars_congr h]

theorem touches_eq (hvar : t.isVar = false) :
    σ.touches t = (t.children.any σ.touches || t.frames.any σ.contains) := by
  have hvars : t.vars = t.children.flatMap Term.vars ++ t.frames := by
    rw [Term.vars_eq]
    split
    · rename_i hn
      rw [Term.isVar, hn] at hvar
      cases hvar
    · rfl
  rw [touches, hvars, List.any_append, List.any_flatMap]
  rfl

theorem touches_of_var {v : Var} (hn : t.node = .var v) : σ.touches t = σ.contains v := by
  rw [touches, Term.vars_eq, hn]
  simp

theorem get?_of_not_contains {v : Var} (h : σ.contains v = false) : σ.get? v = none := by
  simpa [contains] using h

/-- What a frame stands for. -/
def frameTerm (σ : Substitution) (v : Var) : Build Term :=
  match σ.get? v with
  | some u => return u
  | none => Term.var v

/-- The instance of a term, in which every node that mentions a bound variable is made again. -/
def instantiate (σ : Substitution) : Term → Build Term :=
  Term.fold fun t below => do
    if !σ.touches t then return t
    match t.asVar? with
    | some v => return (σ.get? v).getD t
    | none => t.rebuild (← below.mapM id) (← t.frames.mapM σ.frameTerm)

theorem instantiate_of_not_touches (h : σ.touches t = false) : σ.instantiate t = pure t := by
  rw [instantiate, Term.fold_eq, h]
  rfl

theorem instantiate_of_var {v : Var} (hn : t.node = .var v) : σ.instantiate t = pure ((σ.get? v).getD t) := by
  cases h : σ.touches t with
  | true =>
    rw [instantiate, Term.fold_eq, h, Term.asVar?_of_var hn]
    rfl
  | false =>
    rw [touches_of_var hn] at h
    rw [instantiate_of_not_touches (by rw [touches_of_var hn, h]), get?_of_not_contains h]
    rfl

theorem instantiate_eq (h : σ.touches t) (hvar : t.isVar = false) : σ.instantiate t = (do
    t.rebuild (← t.children.mapM σ.instantiate) (← t.frames.mapM σ.frameTerm)) := by
  rw [instantiate, Term.fold_eq, h, Term.asVar?_eq_none hvar, ← instantiate]
  simp only [Bool.not_true, Bool.false_eq_true, if_false, List.mapM_map]
  rfl

/-! ### Equal terms -/

theorem agree_frameTerm (v : Var) : Agree (fun t u : Term => t == u) (σ.frameTerm v) (σ.frameTerm v) := by
  unfold frameTerm
  split
  · exact .pure BEq.rfl
  · exact Term.agree_var v

theorem agree_rebuild_of_beq (h : t == u) {cs ds fs gs : List Term} (hcs : Equal cs ds) (hfs : Equal fs gs) :
    Agree (fun t u : Term => t == u) (t.rebuild cs fs) (u.rebuild ds gs) := by
  have hagree : Agree (fun t u : Term => t == u) (u.rebuild cs fs) (u.rebuild ds gs) := Term.agree_rebuild hcs hfs
  rcases Term.rebuild_congr (Term.alike_of_beq h) cs fs with heq | ⟨ht, hu⟩
  · rwa [heq]
  · rw [hu] at hagree
    rw [ht]
    exact hagree.of_pure fun _ hu => BEq.trans h hu

/-- Equal terms have equal instances. -/
theorem agree_instantiate (h : t == u) :
    Agree (fun t u : Term => t == u) (σ.instantiate t) (σ.instantiate u) := by
  induction t using Term.induction generalizing u with
  | h t ih =>
    cases ht : σ.touches t with
    | false =>
      rw [instantiate_of_not_touches ht, instantiate_of_not_touches (touches_congr h ▸ ht)]
      exact .pure h
    | true =>
      cases hvar : t.isVar with
      | true =>
        obtain ⟨v, hn⟩ := Term.exists_var hvar
        have hn' : u.node = .var v := Term.node_of_asVar? (by rw [← Term.asVar?_congr h, Term.asVar?_of_var hn])
        rw [instantiate_of_var hn, instantiate_of_var hn']
        cases σ.get? v with
        | none => exact .pure h
        | some => exact .pure BEq.rfl
      | false =>
        rw [instantiate_eq ht hvar, instantiate_eq (touches_congr h ▸ ht) (Term.isVar_congr h ▸ hvar),
          ← Term.frames_congr h]
        refine (Agree.mapM (Term.children_congr h) fun c hc d hcd => ih c hc hcd).bind fun cs ds hcs => ?_
        refine (Agree.mapM (T := Eq) (List.forall₂_same.mpr fun _ _ => rfl) ?_).bind fun fs gs hfs =>
          agree_rebuild_of_beq h hcs hfs
        rintro v - _ rfl
        exact agree_frameTerm v

end Substitution

/-! ### A run that follows a computation -/

namespace Build
variable {α β γ δ : Type} {k : Nat} {R : Nat → α → β → Prop} {S : Nat → γ → δ → Prop} {x : Build α} {y : Build β}

/-- Run when the next node has the number `k`, the one ends as the other does from anywhere, with values that
are related by the time the next node has the number that `R` is told. -/
def Follows (k : Nat) (R : Nat → α → β → Prop) (x : Build α) (y : Build β) : Prop :=
  ∀ m, Outcomes (fun a b => k ≤ (x k).2 ∧ R (x k).2 a b) (x k).1 (y m).1

namespace Follows

theorem mono {Q : Nat → α → β → Prop} (h : Follows k Q x y) (hQR : ∀ m a b, k ≤ m → Q m a b → R m a b) :
    Follows k R x y :=
  fun m => (h m).imp fun _ _ _ hab => ⟨hab.1, hQR _ _ _ hab.1 hab.2⟩

theorem pure {a : α} {b : β} (h : R k a b) : Follows k R (Pure.pure a) (Pure.pure b) :=
  fun _ => .ok ⟨Nat.le_refl k, h⟩

/-- The one may do more, as long as it gives a value that the other is known to give. -/
theorem of_gives {P : Nat → α → Prop} {b : β} (hx : Gives k P x) (h : ∀ m a, k ≤ m → P m a → R m a b) :
    Follows k R x (Pure.pure b) := by
  obtain ⟨a, k', hrun, hk, hP⟩ := hx
  intro m
  rw [hrun]
  exact .ok ⟨hk, h k' a hk hP⟩

theorem bind {f : α → Build γ} {g : β → Build δ} (hx : Follows k R x y)
    (hf : ∀ m a b, k ≤ m → R m a b → Follows m S (f a) (g b)) : Follows k S (x >>= f) (y >>= g) := by
  intro m
  have hout : Outcomes _ (x k).1 (y m).1 := hx m
  rw [bind_run, bind_run]
  rcases hxk : x k with ⟨r, k'⟩
  rcases hym : y m with ⟨s, m'⟩
  rw [hxk, hym] at hout
  cases hout with
  | ok h =>
    have hnext : Outcomes _ (f _ k').1 (g _ m').1 := hf k' _ _ h.1 h.2 m'
    dsimp only
    rcases hfk : f _ k' with ⟨r, k''⟩
    rw [hfk] at hnext
    generalize (g _ m').1 = s at hnext ⊢
    cases hnext with
    | ok h' => exact .ok ⟨Nat.le_trans h.1 h'.1, h'.2⟩
    | error c d => exact .error c d
  | error c d => exact .error c d

theorem mapM {P : Nat → γ → α → Prop} {Q : Nat → α → β → Prop} {f : γ → Build α} {g : γ → Build β}
    (hP : ∀ {m l c a}, m ≤ l → P m c a → P l c a) (hQ : ∀ {m l a b}, m ≤ l → Q m a b → Q l a b) :
    ∀ {cs : List γ} {k : Nat},
      (∀ c ∈ cs, ∀ m, k ≤ m → Follows m (fun l a b => P l c a ∧ Q l a b) (f c) (g c)) →
        Follows k (fun m as bs => List.Forall₂ (P m) cs as ∧ List.Forall₂ (Q m) as bs) (cs.mapM f) (cs.mapM g)
  | [], k, _ => by
    rw [List.mapM_nil, List.mapM_nil]
    exact .pure ⟨.nil, .nil⟩
  | c :: cs, k, hstep => by
    rw [List.mapM_cons, List.mapM_cons]
    refine (hstep c List.mem_cons_self k (Nat.le_refl k)).bind fun m a b hm hab => ?_
    have hrest : Follows m (fun l as bs => List.Forall₂ (P l) cs as ∧ List.Forall₂ (Q l) as bs)
        (cs.mapM f) (cs.mapM g) :=
      mapM (P := P) (Q := Q) hP hQ fun c hc l hl => hstep c (List.mem_cons_of_mem _ hc) l (Nat.le_trans hm hl)
    refine hrest.bind fun l as bs hl has => .pure ?_
    exact ⟨.cons (hP hl hab.1) has.1, .cons (hQ hl hab.2) has.2⟩

/-- Where the next node is numbered may be looked at. -/
theorem start {f : Nat → Build α} (h : ∀ n, Follows k R (f n) y) : Follows k R (nextId >>= f) y := h k

/-- What is kept by the one run holds of its values. -/
theorem and_from {P : Nat → α → Prop} (h : Follows k R x y) (hx : From k P x) :
    Follows k (fun m a b => R m a b ∧ P m a) x y :=
  fun m => (h m).imp fun _ _ ha hab => ⟨hab.1, hab.2, (hx _ _ (Prod.ext ha rfl)).2⟩

/-- Computations that agree wherever they begin. -/
theorem of_agree {Q : α → β → Prop} (h : Agree Q x y) (hx : From k (fun _ _ => True) x) :
    Follows k (fun _ => Q) x y :=
  fun m => (h k m).imp fun _ _ ha hab => ⟨(hx _ _ (Prod.ext ha rfl)).1, hab⟩

end Follows

end Build

namespace Substitution
variable {σ : Substitution} {roots : List Term} {t c : Term} {n k : Nat}

theorem touches_child (hc : c ∈ t.children) (h : σ.touches c) : σ.touches t := by
  have hvar : t.isVar = false := by
    unfold Term.isVar Node.isVar
    split
    · rename_i hn
      rw [Term.children, hn] at hc
      cases hc
    · rfl
  rw [touches_eq hvar, Bool.or_eq_true]
  exact .inl (List.any_eq_true.mpr ⟨c, hc, h⟩)

/-- Whether every node was made before the number `k`, and has not the number of a node of `roots` that mentions
a bound variable. -/
def IsApart (σ : Substitution) (roots : List Term) (k : Nat) (t : Term) : Prop :=
  ∀ u ∈ t.nodes, u.isCanonical = false → u.mark.id < k ∧
    ∀ r ∈ roots.flatMap Term.nodes, σ.touches r → r.mark.id ≠ u.mark.id

theorem isApart_iff : IsApart σ roots k t ↔ (t.isCanonical = false → t.mark.id < k ∧
    ∀ r ∈ roots.flatMap Term.nodes, σ.touches r → r.mark.id ≠ t.mark.id) ∧
      ∀ c ∈ t.children, IsApart σ roots k c := by
  rw [IsApart, t.nodes_eq, List.forall_mem_cons]
  refine and_congr_right fun _ => ⟨fun h c hc u hu => h u (List.mem_flatMap.mpr ⟨c, hc, hu⟩), fun h u hu => ?_⟩
  obtain ⟨c, hc, hu⟩ := List.mem_flatMap.mp hu
  exact h c hc u hu

theorem IsApart.mono {m : Nat} (hm : k ≤ m) (h : IsApart σ roots k t) : IsApart σ roots m t :=
  fun u hu hc => ⟨Nat.lt_of_lt_of_le (h u hu hc).1 hm, (h u hu hc).2⟩

theorem IsApart.child (h : IsApart σ roots k t) (hc : c ∈ t.children) : IsApart σ roots k c := by
  rw [isApart_iff] at h
  exact h.2 c hc

theorem IsApart.congr {u : Term} (h : IsApart σ roots k t) (hnode : u.node = t.node) (hid : u.mark.id = t.mark.id) :
    IsApart σ roots k u := by
  rw [isApart_iff] at h ⊢
  rwa [Term.isCanonical, Term.children, hnode, hid]

theorem isCanonical_of_touches (h : σ.touches t) : t.isCanonical = false := by
  by_contra hc
  rw [Bool.not_eq_false] at hc
  have hground := (Term.isGround_iff_vars t).mp (Term.isGround_of_isCanonical hc)
  rw [touches, hground] at h
  cases h

/-- What a term without bound variables is made into is the term. -/
theorem gives_apply_self (h : σ.touches t = false) : ∀ k, Gives k (fun _ u => u = t) (σ.apply t) := by
  induction t using Term.induction with
  | h t ih =>
    intro k
    cases hvar : t.isVar with
    | true =>
      obtain ⟨v, hn⟩ := Term.exists_var hvar
      rw [touches_of_var hn] at h
      rw [apply, Term.substitute_of_var hn, get?_of_not_contains h]
      exact .pure rfl
    | false =>
      rw [touches_eq hvar, Bool.or_eq_false_iff, List.any_eq_false, List.any_eq_false] at h
      rw [apply, Term.substitute_eq hvar, Term.update]
      refine Gives.bind (p := fun _ _ => True) ⟨k, k, rfl, Nat.le_refl k, trivial⟩ fun k start _ _ => ?_
      rw [List.mapM_map]
      have hchildren : Gives k (fun _ us => List.Forall₂ (fun u c => u = c) us t.children)
          (t.children.mapM (id ∘ Term.substitute σ.get?)) :=
        Gives.mapM (S := Eq) (R := fun _ u c => u = c) (fun _ h => h) (List.forall₂_same.mpr fun _ _ => rfl)
          fun c hc _ hcd m _ => hcd ▸ ih c hc (by simpa using h.1 c hc) m
      refine hchildren.bind fun k us _ hus => ?_
      rw [List.forall₂_eq_eq_eq] at hus
      subst hus
      refine Gives.bind (p := fun _ es => ∀ e ∈ es, e.1 = e.2) ?_ fun k es _ hes => ?_
      · refine (Gives.mapM (S := Eq) (R := fun _ (e : Term × Term) _ => e.1 = e.2) (fun _ h => h)
          (List.forall₂_same.mpr fun _ _ => rfl) ?_).mono fun _ es _ hes e he => ?_
        · rintro v hv _ rfl m -
          refine Gives.bind (p := fun _ u => u.node = .var v) ⟨_, _, rfl, Nat.le_succ m, rfl⟩ fun m u _ hu => ?_
          rw [Term.asVar?_of_var hu, Option.bind_some, get?_of_not_contains (by simpa using h.2 v hv)]
          exact .pure rfl
        · obtain ⟨v, -, he⟩ := PairedLists.exists_mem hes he
          exact he
      · rw [if_pos]
        · exact .pure rfl
        · rw [Term.allSame_self, Bool.true_and, List.all_eq_true]
          intro e he
          show e.1.same e.2
          rw [hes e he]
          exact Term.same_self _

theorem same_of_isApart {u : Term} (ht : t ∈ roots.flatMap Term.nodes) (h : σ.touches t)
    (hu : IsApart σ roots k u) : t.same u = false := by
  rw [Term.same, isCanonical_of_touches h, if_neg Bool.false_ne_true]
  cases huc : u.isCanonical with
  | true => rfl
  | false =>
    rw [Bool.not_false, Bool.true_and, beq_eq_false_iff_ne]
    exact ((isApart_iff.mp hu).1 huc).2 t ht h

theorem isLeaf_of_touches (h : σ.touches t) (hvar : t.isVar = false) : t.node.isLeaf = false := by
  rw [touches_eq hvar, Term.children, Term.frames] at h
  cases hn : t.node with
  | app label args =>
    cases label with
    | const => rfl
    | freezer => rfl
  | _ => simp_all [Node.isLeaf, Node.children, Node.frames, Term.isVar, Node.isVar]

/-- Children and frames that the bindings change are not those that the node had. -/
theorem moved_of_touches {us : List Term} {es : List (Term × Term)} (ht : t.nodes ⊆ roots.flatMap Term.nodes)
    (h : σ.touches t) (hvar : t.isVar = false) (hlen : us.length = t.children.length)
    (hus : ∀ u ∈ us, IsApart σ roots k u)
    (hes : List.Forall₂ (fun v (e : Term × Term) => σ.contains v → e.1.same e.2 = false) t.frames es) :
    (Term.allSame t.children us && es.all fun e => e.1.same e.2) = false := by
  rw [touches_eq hvar, Bool.or_eq_true, List.any_eq_true, List.any_eq_true] at h
  rw [Bool.and_eq_false_iff]
  rcases h with ⟨c, hc, htouch⟩ | ⟨v, hv, hcontains⟩
  · have hmem : c ∈ roots.flatMap Term.nodes := ht (Term.nodes_child hc c.self_mem_nodes)
    exact .inl (Term.allSame_eq_false hlen hc fun u hu => same_of_isApart hmem htouch (hus u hu))
  · obtain ⟨e, he, hsame⟩ := PairedLists.exists_mem hes hv
    exact .inr (List.all_eq_false.mpr ⟨e, he, by rw [hsame hcontains]; exact Bool.false_ne_true⟩)

section Roots
variable (hroots : Term.AreHeap n roots)
include hroots

theorem isApart_new (hk : n ≤ k) {m : Node Term} (hc : ∀ c ∈ m.children, IsApart σ roots k c) :
    From k (fun k => IsApart σ roots k) (Term.new m) := by
  unfold Term.new
  refine .ite (fun hcan => .pure (isApart_iff.mpr ⟨fun hno => ?_, hc⟩)) fun _ => ?_
  · rw [Term.isCanonical, hcan] at hno
    cases hno
  · rintro u k' ⟨⟩
    refine ⟨Nat.le_succ k, isApart_iff.mpr ⟨fun _ => ⟨Nat.lt_succ_self k, fun r hr htouch heq => ?_⟩,
      fun c h => (hc c h).mono (Nat.le_succ k)⟩⟩
    have hlt := (hroots r hr (isCanonical_of_touches htouch)).1
    simp only at heq
    omega

/-- Builders keep terms apart if they number nodes from behind the roots. -/
theorem isApart_kept : Kept n (IsApart σ roots) fun _ => True where
  mono := IsApart.mono
  part h _ hc := h.child hc
  frame _ _ := trivial
  var _ _ := trivial
  newVar hk _ := isApart_new hroots hk (List.forall_mem_nil _)
  new hk _ hc _ := isApart_new hroots hk hc

/-- What mentions no bound variable is apart from what does. -/
theorem isApart_of_not_touches (ht : t.nodes ⊆ roots.flatMap Term.nodes) (h : σ.touches t = false) :
    IsApart σ roots n t := by
  induction t using Term.induction with
  | h t ih =>
    have hmem := ht t.self_mem_nodes
    refine isApart_iff.mpr ⟨fun hcan => ⟨(hroots t hmem hcan).1, fun r hr htouch heq => ?_⟩, fun c hc => ?_⟩
    · have hbeq := (hroots t hmem hcan).2 r hr (isCanonical_of_touches htouch) heq
      rw [touches_congr hbeq, h] at htouch
      cases htouch
    · refine ih c hc (fun u hu => ht (Term.nodes_child hc hu)) ?_
      by_contra hno
      rw [Bool.not_eq_false] at hno
      rw [touches_child hc hno] at h
      cases h

theorem isApart_rebuild (hk : n ≤ k) (hleaf : t.node.isLeaf = false) {cs fs : List Term}
    (hlen : cs.length = t.children.length) (hcs : ∀ c ∈ cs, IsApart σ roots k c)
    (hfs : ∀ f ∈ fs, IsApart σ roots k f) : From k (fun k => IsApart σ roots k) (t.rebuild cs fs) := by
  cases hr : t.isRewrite with
  | true =>
    obtain ⟨l, r, hn⟩ : ∃ l r, t.node = .rewrite l r := by
      unfold Term.isRewrite at hr
      split at hr
      · exact ⟨_, _, ‹_›⟩
      · cases hr
    rw [Term.children, hn] at hlen
    obtain ⟨l', r', rfl⟩ := List.length_eq_two.mp hlen
    unfold Term.rebuild
    rw [hn]
    exact isApart_new hroots hk hcs
  | false =>
    refine Term.kept_rebuild_node (isApart_kept hroots) hk hr (fun h => ?_) hcs hfs
      fun m _ hc => isApart_new hroots hk hc
    rw [hleaf] at h
    simp [hlen] at h

/-- A new variable stands for a frame, or its value does. -/
theorem follows_frame (hσ : ∀ v u, σ.get? v = some u → IsApart σ roots n u) (hk : n ≤ k) (v : Var) :
    Build.Follows k (fun m (e : Term × Term) f => (IsApart σ roots m e.2 ∧ (σ.contains v → e.1.same e.2 = false)) ∧
      e.2 == f) (do
        let node ← (liftM (Term.var v) : Build Term)
        return (node, ← (return (node.asVar?.bind σ.get?).getD node : Build Term))) (σ.frameTerm v) := by
  unfold frameTerm
  cases hv : σ.get? v with
  | some u =>
    refine .of_gives (P := fun m (e : Term × Term) => e.1.isCanonical = false ∧ n ≤ e.1.mark.id ∧ k ≤ m ∧ e.2 = u)
      ⟨_, _, rfl, Nat.le_succ k, ?_⟩ fun m e _ he => ?_
    · exact ⟨rfl, hk, Nat.le_succ k, by simp [Term.asVar?, hv]⟩
    · obtain ⟨hcan, hid, hm, he⟩ := he
      have hu := hσ v u hv
      rw [he]
      refine ⟨⟨hu.mono (Nat.le_trans hk hm), fun _ => ?_⟩, BEq.rfl⟩
      rw [Term.same, hcan, if_neg Bool.false_ne_true]
      cases huc : u.isCanonical with
      | true => rfl
      | false =>
        have hlt := ((isApart_iff.mp hu).1 huc).1
        rw [Bool.not_false, Bool.true_and, beq_eq_false_iff_ne]
        omega
  | none =>
    have hnode : From k (fun _ u => u.node = .var v) (Term.var v) :=
      .of_returns (Term.returns_var v) (Term.grows_new _ k)
    have hvar : Build.Follows k (fun _ u f => u == f) (Term.var v) (Term.var v) :=
      .of_agree (Term.agree_var v) (Term.grows_new _ k)
    refine ((hvar.and_from ((isApart_kept (σ := σ) hroots).newVar hk trivial)).and_from hnode).bind
      (g := Pure.pure) fun m u f hm h => .pure ?_
    obtain ⟨⟨huf, hu⟩, hn⟩ := h
    rw [Term.asVar?_of_var hn, Option.bind_some, hv]
    refine ⟨⟨hu, fun hc => ?_⟩, huf⟩
    rw [contains, hv] at hc
    cases hc

/-- Applying the bindings gives the instance, and it is apart from `roots`. -/
theorem follows_apply (hσ : ∀ v u, σ.get? v = some u → IsApart σ roots n u) :
    ∀ t : Term, t.nodes ⊆ roots.flatMap Term.nodes → ∀ k, n ≤ k →
      Build.Follows k (fun m u v => IsApart σ roots m u ∧ u == v) (σ.apply t) (σ.instantiate t) := by
  intro t
  induction t using Term.induction with
  | h t ih =>
    intro ht k hk
    cases htouch : σ.touches t with
    | false =>
      rw [instantiate_of_not_touches htouch]
      refine .of_gives (gives_apply_self htouch k) ?_
      rintro m _ hm rfl
      exact ⟨(isApart_of_not_touches hroots ht htouch).mono (Nat.le_trans hk hm), BEq.rfl⟩
    | true =>
      cases hvar : t.isVar with
      | true =>
        obtain ⟨v, hn⟩ := Term.exists_var hvar
        rw [instantiate_of_var hn, apply, Term.substitute_of_var hn]
        rw [touches_of_var hn] at htouch
        obtain ⟨u, hu⟩ := Option.isSome_iff_exists.mp htouch
        rw [hu]
        exact .pure ⟨(hσ v u hu).mono hk, BEq.rfl⟩
      | false =>
        rw [instantiate_eq htouch hvar, apply, Term.substitute_eq hvar, Term.update, List.mapM_map]
        have hchildren : Build.Follows k (fun m us vs =>
            List.Forall₂ (fun _ u => IsApart σ roots m u) t.children us ∧ Equal us vs)
              (t.children.mapM (id ∘ Term.substitute σ.get?)) (t.children.mapM σ.instantiate) :=
          .mapM (P := fun m _ u => IsApart σ roots m u) (Q := fun _ u v => (u == v) = true)
            (fun hm h => h.mono hm) (fun _ h => h)
            fun c hc m hm => ih c hc (fun u hu => ht (Term.nodes_child hc hu)) m (Nat.le_trans hk hm)
        have hframes {m : Nat} (hm : n ≤ m) := Build.Follows.mapM
          (P := fun m v (e : Term × Term) => IsApart σ roots m e.2 ∧ (σ.contains v → e.1.same e.2 = false))
          (Q := fun _ (e : Term × Term) f => (e.2 == f) = true) (fun hm h => ⟨h.1.mono hm, h.2⟩) (fun _ h => h)
          fun v (_ : v ∈ t.frames) l hl => follows_frame hroots hσ (Nat.le_trans hm hl) v
        refine .start fun start => hchildren.bind fun l us vs hl hpairs => ?_
        obtain ⟨hus, huv⟩ := hpairs
        refine (hframes (Nat.le_trans hk hl)).bind fun m es gs hm hpairs => ?_
        obtain ⟨hes, hge⟩ := hpairs
        have hnm := Nat.le_trans hk (Nat.le_trans hl hm)
        have hapart : ∀ u ∈ us, IsApart σ roots m u := fun u hu => by
          obtain ⟨c, -, hc⟩ := PairedLists.exists_mem hus.flip hu
          exact IsApart.mono hm hc
        have hfapart : ∀ f ∈ es.map (·.2), IsApart σ roots m f := fun f hf => by
          obtain ⟨e, he, rfl⟩ := List.mem_map.mp hf
          obtain ⟨v, -, hv⟩ := PairedLists.exists_mem hes.flip he
          exact hv.1
        rw [if_neg]
        · have hmade : Build.Follows m (fun _ u v => (u == v) = true) (t.rebuild us (es.map (·.2)))
              (t.rebuild vs gs) :=
            .of_agree (Term.agree_rebuild huv (List.forall₂_map_left_iff.mpr hge)) (Term.grows_rebuild t _ _ m)
          have hkept := isApart_rebuild hroots hnm (isLeaf_of_touches htouch hvar) hus.length_eq.symm hapart hfapart
          rw [← bind_pure (t.rebuild vs gs)]
          refine (hmade.and_from hkept).bind fun i u v _ h => .pure ?_
          obtain ⟨huv, hu⟩ := h
          split
          · refine ⟨hu.congr (Term.makeEditable_node start u) (Term.makeEditable_id start u), ?_⟩
            rwa [Term.beq_iff_mapChildren, Term.makeEditable_node, ← Term.beq_iff_mapChildren]
          · exact ⟨hu, huv⟩
        · rw [moved_of_touches ht htouch hvar hus.length_eq.symm hapart (hes.imp fun _ _ h => h.2)]
          exact Bool.false_ne_true

end Roots

end Substitution

end RuleCompiler
