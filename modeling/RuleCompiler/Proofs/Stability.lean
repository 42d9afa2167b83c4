import RuleCompiler.Proofs.Coupling.Renumbered
import RuleCompiler.Proofs.Fuel

/-! # Values that stay

Evaluation leaves nothing behind that it would change again. A node is settled when its evaluation gives the node
itself, at a fixed cost, however late it comes. An evaluation that is refused nothing gives a term of settled
nodes: what it kept was settled when it got there, and what it made anew it evaluated after its parts. -/

namespace RuleCompiler

open Coupled (Runs)
open Term (IsHeap IsNode Renumbered forall_mem_nodes)

/-! ### Stores -/

namespace Term

/-- Terms that share nodes as they are made: canonical nodes have no number of their own. -/
structure IsStore (n : Nat) (ts : List Term) : Prop extends IsHeap n ts where
  id_eq_zero {t : Term} (ht : IsNode ts t) (hc : t.isCanonical) : t.mark.id = 0

theorem IsStore.mark_eq {n : Nat} {ts : List Term} (h : IsStore n ts) {t : Term} (ht : IsNode ts t)
    (hc : t.isCanonical) : t.mark = {} := by
  have hid := h.id_eq_zero ht hc
  have hedit : t.mark.isEditable = false := h.frozen ht hc
  obtain ⟨⟨id, edit⟩, node⟩ := t
  dsimp only at hid hedit
  rw [hid, hedit]

/-- Equal canonical nodes that are marked alike are the same. -/
theorem eq_of_canonical {t u : Term} (h : t == u) (hc : t.isCanonical) (hmark : t.mark = u.mark) : t = u := by
  have halike := alike_of_beq h
  have hnode : t.node = u.node := by
    rw [isCanonical] at hc
    generalize t.node = a, u.node = b at halike hc
    cases halike with
    | app h => cases h with
      | nil => rfl
      | cons => cases hc
    | @seq _ _ frame h => cases h with
      | nil => rfl
      | cons => cases hc
    | token | hole | labelValue => rfl
    | _ => cases hc
  obtain ⟨m, a⟩ := t
  obtain ⟨m', b⟩ := u
  dsimp only at hnode hmark
  rw [hnode, hmark]

end Term

open Term (IsStore)

/-! ### Where nodes come from -/

/-- The node is one of the store, or it was made later and after the nodes below it. -/
structure IsPlaced (base : Nat) (ts : List Term) (n : Nat) (t : Term) : Prop where
  canonical (hc : t.isCanonical) : t.mark = {}
  id_lt (hc : t.isCanonical = false) : t.mark.id < n
  old (hc : t.isCanonical = false) (hid : t.mark.id < base) : IsNode ts t
  below (hc : t.isCanonical = false) (hid : base ≤ t.mark.id) {c d : Term} (hchild : c ∈ t.children) (hd : d ∈ c.nodes)
    (hdc : d.isCanonical = false) : d.mark.id < t.mark.id

variable {base n m k : Nat} {ts : List Term} {t u r : Term}

theorem isPlaced_invariant (base : Nat) (ts : List Term) : NodeInvariant base (IsPlaced base ts) where
  mono hm h := ⟨h.canonical, fun hc => Nat.lt_of_lt_of_le (h.id_lt hc) hm, h.old, h.below⟩
  canonical hm := by
    have hno {p : Prop} (hc : Term.isCanonical (Term.canonical _) = false) : p :=
      (Bool.false_ne_true (hc.symm.trans hm)).elim
    exact ⟨fun _ => rfl, hno, fun hc => hno hc, fun hc => hno hc⟩
  made {n m} hn hm h := by
    refine ⟨fun hc => ?_, fun _ => Nat.lt_succ_self n, fun _ hid => (Nat.not_lt.mpr hn hid).elim,
      fun _ _ {c d} hc hd hdc => ?_⟩
    · exact (Bool.false_ne_true (hm.symm.trans hc)).elim
    · exact (h c hc d hd).id_lt hdc
  editable hc hid h :=
    ⟨fun hc' => (Bool.false_ne_true (hc.symm.trans hc')).elim, h.id_lt,
      fun _ hid' => (Nat.not_lt.mpr hid hid').elim, h.below⟩

/-- If the node was there before `start`, it is one of those. -/
def IsKnown (start : Nat) (S : Term → Prop) (_ : Nat) (t : Term) : Prop :=
  t.isCanonical = false → t.mark.id < start → S t

theorem isKnown_invariant (start : Nat) (S : Term → Prop) : NodeInvariant start (IsKnown start S) where
  mono _ h := h
  canonical hm hc := (Bool.false_ne_true (hc.symm.trans hm)).elim
  made hn _ _ _ hid := (Nat.not_lt.mpr hn hid).elim
  editable _ hid _ _ hid' := (Nat.not_lt.mpr hid hid').elim

/-! ### Evaluations again -/

namespace Evaluation
variable {α β : Type} {s s' j j' : Nat} {P : α → Prop} {Q : β → Prop} {x : Evaluation α}

/-- From `n` on the evaluation gives such a value, makes `s` rule applications and `j` nodes, whatever fuel that is
enough there is. -/
def Costs (s j n : Nat) (P : α → Prop) (x : Evaluation α) : Prop := ∀ m b, n ≤ m → b.tooDeep = false → s ≤ b.fuel →
  ∃ a, x b m = (.ok (a, b.spent s), m + j) ∧ P a

theorem Costs.mono (h : Costs s j n P x) (hm : n ≤ m) : Costs s j m P x := fun k b hk => h k b (Nat.le_trans hm hk)

theorem Costs.pure {a : α} (h : P a) : Costs 0 0 n P (Pure.pure a) := fun _ _ _ _ _ => ⟨a, rfl, h⟩

theorem Costs.bind {f : α → Evaluation β} (h : Costs s j n P x) (hf : ∀ a, P a → Costs s' j' n Q (f a)) :
    Costs (s + s') (j + j') n Q (x >>= f) := by
  intro m b hm hb hfuel
  obtain ⟨a, hrun, ha⟩ := h m b hm hb (by omega)
  obtain ⟨c, hrun', hc⟩ := hf a ha (m + j) (b.spent s) (by omega) hb (by rw [Budget.spent_fuel]; omega)
  refine ⟨c, (Build.bind_eq hrun).trans (hrun'.trans ?_), hc⟩
  rw [Budget.spent_spent, Nat.add_assoc]

theorem Costs.mapM {f : β → Evaluation α} {P : β → α → Prop} : ∀ {l : List β},
    (∀ b ∈ l, ∃ s j, Costs s j n (P b) (f b)) → ∃ s j, Costs s j n (List.Forall₂ P l) (l.mapM f)
  | [], _ => by
    rw [List.mapM_nil]
    exact ⟨0, 0, .pure .nil⟩
  | b :: l, h => by
    obtain ⟨s, j, hb⟩ := h b List.mem_cons_self
    obtain ⟨s', j', hl⟩ := Costs.mapM fun c hc => h c (List.mem_cons_of_mem b hc)
    rw [List.mapM_cons]
    refine ⟨s + (s' + 0), j + (j' + 0), hb.bind fun a ha => hl.bind fun as has => .pure (.cons ha has)⟩

end Evaluation

open Evaluation (Costs)

namespace Evaluator
variable {e : Evaluator} {depth : Nat}

/-- Evaluations of the node from `n` on give the node itself, at one cost. -/
def Settled (e : Evaluator) (depth n : Nat) (t : Term) : Prop :=
  ∃ s j, Costs s j n (· = t) (reduce (e.within depth) e t)

/-- Every node is settled. -/
def Inert (e : Evaluator) (depth n : Nat) (t : Term) : Prop := ∀ c ∈ t.nodes, e.Settled depth n c

theorem Settled.mono (hm : n ≤ m) (h : e.Settled depth n t) : e.Settled depth m t := by
  obtain ⟨s, j, h⟩ := h
  exact ⟨s, j, h.mono hm⟩

theorem Inert.mono (hm : n ≤ m) (h : e.Inert depth n t) : e.Inert depth m t := fun c hc => (h c hc).mono hm

theorem reduce_eq_self {go : Term → Evaluation Term} (h : t.node.isCall = false) : reduce go e t = pure t := by
  unfold reduce
  split
  · rename_i hn
    rw [hn] at h
    cases h
  · rfl

theorem settled_of_isCall (h : t.node.isCall = false) : e.Settled depth n t :=
  ⟨0, 0, by rw [reduce_eq_self h]; exact .pure rfl⟩

theorem costs_frames (e : Evaluator) (depth n : Nat) (vs : List Var) : ∃ s j,
    Costs s j n (fun fs => (fs.all fun (old, new) => old.same new) = true)
    (vs.mapM fun v => do
      let node ← liftM (Term.var v)
      return (node, ← reduce (e.within depth) e node)) := by
  have hvar (v : Var) : Costs 0 1 n (fun t : Term => t.node.isCall = false) (liftM (Term.var v)) :=
    fun m b _ _ _ => ⟨_, rfl, rfl⟩
  obtain ⟨s, j, h⟩ := Costs.mapM (n := n) (P := fun _ (p : Term × Term) => p.1.same p.2 = true) (l := vs)
    (f := fun v => do
      let node ← liftM (Term.var v)
      return (node, ← reduce (e.within depth) e node)) fun v _ =>
    ⟨0 + 0, 1 + 0, (hvar v).bind fun t ht => by
      rw [reduce_eq_self ht, pure_bind]
      exact .pure t.same_self⟩
  refine ⟨s, j, fun m b hm hb hfuel => ?_⟩
  obtain ⟨fs, hrun, hfs⟩ := h m b hm hb hfuel
  exact ⟨fs, hrun, List.all_eq_true.mpr fun p hp => (PairedLists.exists_mem hfs.flip hp).choose_spec.2⟩

/-- A term of settled nodes is evaluated to itself. -/
theorem Inert.costs (h : e.Inert depth n t) : ∃ s j, Costs s j n (· = t) (e.within (depth + 1) t) := by
  rw [within]
  induction t using Term.induction with
  | h t ih =>
    obtain ⟨hself, hbelow⟩ := forall_mem_nodes.mp h
    obtain ⟨s, j, hself⟩ := hself
    obtain ⟨s', j', hframes⟩ := costs_frames e depth n t.frames
    have hnext : Costs 0 0 n (fun _ => True) (liftM Build.nextId : Evaluation Nat) := fun m b _ _ _ => ⟨m, rfl, trivial⟩
    have hchildren : ∃ s j, Costs s j n (List.Forall₂ (fun c c' => c' = c) t.children)
        ((t.children.map (Term.replaceUp (reduce (e.within depth) e))).mapM id) := by
      rw [List.mapM_map]
      exact Costs.mapM fun c hc => ih c hc (hbelow c hc)
    obtain ⟨s'', j'', hchildren⟩ := hchildren
    have hupdate : Costs (0 + (s'' + (s' + 0))) (0 + (j'' + (j' + 0))) n (· = t)
        (t.update (t.children.map (Term.replaceUp (reduce (e.within depth) e))) (reduce (e.within depth) e)) := by
      unfold Term.update
      refine hnext.bind fun start _ => hchildren.bind fun cs hcs => hframes.bind fun fs hfs => ?_
      have heq : t.children = cs := by
        have hcs := hcs.imp fun _ _ h => h.symm
        rwa [List.forall₂_eq_eq_eq] at hcs
      rw [← heq, Term.allSame_self, hfs]
      exact .pure rfl
    have hvisit (u : Term) (hu : u = t) : Costs s j n (· = t) (reduce (e.within depth) e u) := by
      rw [hu]
      exact hself
    rw [Term.replaceUp_step]
    exact ⟨_, _, hupdate.bind hvisit⟩

/-! ### Evaluations that keep what they have -/

/-- Numbers only grow, and a refusal is not forgotten. -/
def Keeps {α : Type} (x : Evaluation α) : Prop := ∀ b n a c k, x b n = (.ok (a, c), k) →
  n ≤ k ∧ (c.isClean → b.isClean)

theorem Keeps.of_runs {α β : Type} {R : Nat → α → β → Prop} {x : Evaluation α} {y : Evaluation β}
    (h : ∀ n, Runs (unchanged (.spare true { fuel := 0 } { fuel := 0 })) n R x y) : Keeps x := by
  intro b n a c k hrun
  have hfollowed (c : Budget) :
      (Allowance.spare true { fuel := 0 } { fuel := 0 }).Followed c ↔ c.isClean := by
    simp [Allowance.spare, Budget.isClean]
  obtain ⟨hk, hclean, -⟩ := h n b a c k (Nat.zero_le n) hrun
  exact ⟨hk, fun hc => (hfollowed b).mp (hclean ((hfollowed c).mpr hc))⟩

theorem keeps_within (depth : Nat) (t : Term) : Keeps (e.within depth t) := .of_runs fun _ => within_unchanged depth t

theorem keeps_reduce (depth : Nat) (t : Term) : Keeps (reduce (e.within depth) e t) :=
  .of_runs fun _ => reduce_unchanged depth t

theorem Keeps.pure {α : Type} (a : α) : Keeps (Pure.pure a) := by
  intro b n a c k hrun
  cases hrun
  exact ⟨Nat.le_refl n, id⟩

theorem Keeps.bind {α β : Type} {x : Evaluation α} {f : α → Evaluation β} (hx : Keeps x) (hf : ∀ a, Keeps (f a)) :
    Keeps (x >>= f) := by
  intro b n r c k hrun
  obtain ⟨a, c', m, hrun, hrest⟩ := Evaluation.exists_of_bind hrun
  obtain ⟨hm, hclean⟩ := hx b n a c' m hrun
  obtain ⟨hk, hclean'⟩ := hf a c' m r c k hrest
  exact ⟨Nat.le_trans hm hk, hclean ∘ hclean'⟩

theorem Keeps.mapM {α β : Type} {f : β → Evaluation α} : ∀ {l : List β}, (∀ b ∈ l, Keeps (f b)) → Keeps (l.mapM f)
  | [], _ => by
    rw [List.mapM_nil]
    exact .pure []
  | b :: l, h => by
    rw [List.mapM_cons]
    exact (h b List.mem_cons_self).bind fun a =>
      (Keeps.mapM fun c hc => h c (List.mem_cons_of_mem b hc)).bind fun as => .pure (a :: as)

/-- The beginning of an evaluation that is refused nothing, and the rest of it. -/
theorem clean_of_bind {α β : Type} {x : Evaluation α} {f : α → Evaluation β} {b c : Budget} {r : β}
    (hx : Keeps x) (hf : ∀ a, Keeps (f a)) (h : (x >>= f) b n = (.ok (r, c), k)) (hc : c.isClean) :
    ∃ a b' m, x b n = (.ok (a, b'), m) ∧ f a b' m = (.ok (r, c), k) ∧ n ≤ m ∧ m ≤ k ∧ b'.isClean := by
  obtain ⟨a, b', m, hrun, hrest⟩ := Evaluation.exists_of_bind h
  obtain ⟨hk, hclean⟩ := hf a b' m r c k hrest
  exact ⟨a, b', m, hrun, hrest, (hx b n a b' m hrun).1, hk, hclean hc⟩

/-- The evaluation gave this, some time between the two numbers and without a refusal. -/
def Gave {α : Type} (x : Evaluation α) (n k : Nat) (a : α) : Prop :=
  ∃ b c n' k', x b n' = (.ok (a, c), k') ∧ c.isClean ∧ n ≤ n' ∧ n' ≤ k' ∧ k' ≤ k

theorem gave_of_mapM {α β : Type} {f : β → Evaluation α} : ∀ {l : List β} {n k : Nat} {b c : Budget} {as : List α},
    (∀ b ∈ l, Keeps (f b)) → l.mapM f b n = (.ok (as, c), k) → c.isClean →
      List.Forall₂ (fun b a => Gave (f b) n k a) l as
  | [], n, k, b, c, as, _, h, _ => by
    rw [List.mapM_nil] at h
    cases h
    exact .nil
  | x :: l, n, k, b, c, as, hl, h, hc => by
    have hrest (d : β) (hd : d ∈ l) := hl d (List.mem_cons_of_mem x hd)
    have hx := hl x List.mem_cons_self
    rw [List.mapM_cons] at h
    obtain ⟨a, b₁, m, hrun, h, hm, -, hb₁⟩ := clean_of_bind hx (fun a => (Keeps.mapM hrest).bind fun as => .pure _) h hc
    obtain ⟨as', b₂, m', hrun', h, hm', hk, hb₂⟩ := clean_of_bind (Keeps.mapM hrest) (fun as => .pure _) h hc
    cases h
    refine .cons ⟨b, b₁, n, m, hrun, hb₁, Nat.le_refl n, hm, hm'⟩ ?_
    refine (gave_of_mapM hrest hrun' hb₂).imp fun d a ⟨b, c, n', k', hrun, hc, hn, hk', hk⟩ => ?_
    exact ⟨b, c, n', k', hrun, hc, Nat.le_trans hm hn, hk', hk⟩

/-! ### Nodes that are kept -/

section Store
variable {b c : Budget} (hts : IsStore base ts) (hrules : ∀ t ∈ e.terms, t ∈ ts)
include hts

omit hts in
theorem isNode_of_rule (hrules : ∀ t ∈ e.terms, t ∈ ts) (ht : t ∈ e.terms) {d : Term} (hd : d ∈ t.nodes) :
    IsNode ts d :=
  Term.isNode_iff_mem_nodes.mpr ⟨t, hrules t ht, hd⟩

theorem isPlaced_of_isNode (h : IsNode ts t) : IsPlaced base ts base t :=
  ⟨hts.mark_eq h, hts.id_lt h, fun _ _ => h, fun hc hid => (Nat.not_lt.mpr hid (hts.id_lt h hc)).elim⟩

include hrules

/-- What a term is evaluated to is the term if it is the same node. -/
theorem eq_of_same (hn : base ≤ n) (ht : ∀ d ∈ t.nodes, IsPlaced base ts n d)
    (hrun : e.within depth t b n = (.ok (r, c), k)) (hsame : t.same r) : t = r := by
  have hself := ht t t.self_mem_nodes
  have hplaced := holds_within (isPlaced_invariant base ts)
    (fun t ht d hd => isPlaced_of_isNode hts (isNode_of_rule hrules ht hd)) hn ht hrun r r.self_mem_nodes
  unfold Term.same at hsame
  split at hsame
  · rename_i hc
    rw [Bool.and_eq_true] at hsame
    exact Term.eq_of_canonical hsame.2 hc ((hself.canonical hc).trans (hplaced.canonical hsame.1).symm)
  · rename_i hc
    rw [Bool.and_eq_true, Bool.not_eq_true', beq_iff_eq] at hsame
    obtain ⟨hrc, hid⟩ := hsame
    have hc : t.isCanonical = false := by simpa using hc
    -- the node was there before, in the term or in a rule
    have hknown := holds_within (isKnown_invariant n fun d => d ∈ t.nodes ∨ IsNode ts d)
      (fun t ht d hd _ _ => .inr (isNode_of_rule hrules ht hd)) (Nat.le_refl n) (fun d hd _ _ => .inl hd) hrun r
      r.self_mem_nodes hrc (hid ▸ hself.id_lt hc)
    by_cases hold : t.mark.id < base
    · exact hts.eq_of_id (hself.old hc hold) (hplaced.old hrc (hid ▸ hold)) hc hrc hid
    rcases hknown with hmem | hnode
    · rw [Term.nodes_eq, List.mem_cons, List.mem_flatMap] at hmem
      rcases hmem with heq | ⟨d, hd, hmem⟩
      · exact heq.symm
      · have := hself.below hc (Nat.not_lt.mp hold) hd hmem hrc
        omega
    · have := hts.id_lt hnode hrc
      omega

end Store

/-! ### Inert parts -/

/-- The same inert term, in both runs. -/
def inertPairing (e : Evaluator) (depth : Nat) : Pairing where
  Rel := NodeInvariant.Holds (e.Settled depth)
  Runs n R x y := Build.InStep 0 0 n R x y
  rel_mono hm h := ⟨h.1, Inert.mono hm h.2⟩
  beq h := h.1 ▸ BEq.rfl
  alike := NodeInvariant.Holds.alike
  mono := .mono
  pure := .pure
  throw := .throw
  bind := .bind
  new {n m m'} hcall h := by
    obtain ⟨rfl, hc⟩ := NodeInvariant.Holds.of_alike h
    refine .new h (fun hm => ⟨rfl, forall_mem_nodes.mpr ⟨settled_of_isCall hcall, hc⟩⟩) fun _ hm => ⟨rfl, ?_⟩
    exact forall_mem_nodes.mpr ⟨settled_of_isCall hcall, fun c hc' => Inert.mono (Nat.le_succ n) (hc c hc')⟩

/-- Everything below the node is inert. -/
def InertBelow (e : Evaluator) (depth n : Nat) (t : Term) : Prop := ∀ c ∈ t.children, e.Inert depth n c

theorem inertBelow_of_children (h : t.children = []) : e.InertBelow depth n t := by
  intro c hc
  rw [h] at hc
  cases hc

theorem inertBelow_rebuild {cs fs : List Term} {t' : Term} (hlen : cs.length = t.children.length)
    (hcs : ∀ c ∈ cs, e.Inert depth n c) (hfs : ∀ f ∈ fs, e.Inert depth n f) (hrun : t.rebuild cs fs n = (.ok t', k)) :
    n ≤ k ∧ e.InertBelow depth k t' := by
  have hpaired {ts : List Term} (h : ∀ t ∈ ts, e.Inert depth n t) : (inertPairing e depth).RelAll n ts ts :=
    List.forall₂_same.mpr fun t ht => ⟨rfl, h t ht⟩
  let S (k : Nat) (t u : Term) : Prop := t = u ∧ e.InertBelow depth k t
  have hwhole (k : Nat) (t u : Term) (h : (inertPairing e depth).Rel k t u) : S k t u :=
    ⟨h.1, (forall_mem_nodes.mp h.2).2⟩
  have hcall (l : String) (s : SortName) :
      (inertPairing e depth).Runs n S (Term.new (.app (.const l) cs s)) (Term.new (.app (.const l) cs s)) := by
    have halike : Node.Alike (S n) (.app (.const l) cs s) (.app (.const l) cs s) :=
      .app (List.forall₂_same.mpr fun c hc => hwhole n c c ⟨rfl, hcs c hc⟩)
    exact .new halike (fun _ => ⟨rfl, hcs⟩) fun _ _ => ⟨rfl, fun c hc => (hcs c hc).mono (Nat.le_succ n)⟩
  have hrebuild : (inertPairing e depth).Runs n S (t.rebuild cs fs) (t.rebuild cs fs) := by
    refine Term.runs_rebuild hwhole (fun _ _ => ⟨rfl, inertBelow_of_children rfl⟩) (fun l s _ => hcall l s)
      (fun h => ?_) ((Term.alike_of_beq BEq.rfl).imp fun _ _ _ => trivial) (hpaired hcs) (hpaired hfs)
    exact ⟨rfl, inertBelow_of_children (Term.children_of_isLeaf (h.resolve_right (· hlen)))⟩
  obtain ⟨hk, -, hout⟩ := hrebuild (Nat.zero_le n)
  rw [hrun] at hk hout
  obtain ⟨_, -, -, h⟩ := hout.exists_right
  exact ⟨hk, h⟩

/-- The result of a built-in operation is a truth value or what the arguments alone say. -/
theorem result_of_apply {functions : List String} {op : Builtin} {args : List Term}
    (hrun : op.apply functions args n = (.ok (some r), k)) :
    (∃ x, r = .bool x) ∨ k = n ∧ (Term.primitives.apply op args <|> op.access? args) = some r := by
  have hother (h : (pure (Term.primitives.apply op args <|> op.access? args) : Build _) n = (.ok (some r), k)) :
      k = n ∧ (Term.primitives.apply op args <|> op.access? args) = some r := by
    have h : (Except.ok _, n) = (Except.ok (some r), k) := h
    rw [Prod.mk.injEq, Except.ok.injEq] at h
    exact ⟨h.2.symm, h.1⟩
  cases op with
  | equality wanted =>
    rcases args with _ | ⟨a, _ | ⟨b, _ | _⟩⟩
    · exact .inr (hother hrun)
    · exact .inr (hother hrun)
    · obtain ⟨o, m, -, hrun⟩ := Build.exists_of_bind hrun
      have hrun : (Except.ok (o.map fun eq => Term.bool (eq == wanted)), m) = (Except.ok (some r), k) := hrun
      rw [Prod.mk.injEq, Except.ok.injEq] at hrun
      obtain ⟨eq, -, rfl⟩ := Option.map_eq_some_iff.mp hrun.1
      exact .inl ⟨_, rfl⟩
    · exact .inr (hother hrun)
  | _ => exact .inr (hother hrun)

/-- The result of a built-in operation on inert arguments is inert. -/
theorem inert_applyBuiltin {label : String} {args : List Term} (hargs : ∀ a ∈ args, e.Inert depth n a)
    (hrun : e.applyBuiltin label args n = (.ok (some r), k)) : e.Inert depth k r := by
  have htoken (s : SortName) (v : String) : (inertPairing e depth).Rel n (.token s v) (.token s v) :=
    ⟨rfl, forall_mem_nodes.mpr ⟨settled_of_isCall rfl, fun _ hc => (List.not_mem_nil hc).elim⟩⟩
  have hpaired : (inertPairing e depth).RelAll n args args := List.forall₂_same.mpr fun a ha => ⟨rfl, hargs a ha⟩
  rw [applyBuiltin] at hrun
  cases hop : e.signature.builtin? label with
  | none =>
    rw [hop] at hrun
    cases hrun
  | some op =>
    rw [hop] at hrun
    rcases result_of_apply hrun with ⟨x, rfl⟩ | ⟨rfl, hr⟩
    · exact forall_mem_nodes.mpr ⟨settled_of_isCall rfl, fun _ hc => (List.not_mem_nil hc).elim⟩
    have hprimitive := Primitives.apply_paired htoken op hpaired
    have haccess := Builtin.access?_paired htoken op hpaired
    generalize Term.primitives.apply op args = o at hprimitive hr
    cases hprimitive with
    | none =>
      rw [show op.access? args = some r from hr] at haccess
      cases haccess with
      | some h => exact h.2
    | some h =>
      cases hr
      exact h.2

/-! ### Evaluations that are refused nothing -/

theorem coupled_update {C : Coupling} (he : e.Coupled C) (hn : C.base ≤ n) (ht : C.Rel n t t) {inner : Nat}
    (hself : ∀ {k t u}, C.Rel k t u → t = u) :
    Runs C n C.Rel (t.update (t.children.map (Term.replaceUp (reduce (e.within inner) e))) (reduce (e.within inner) e))
      (t.update (t.children.map (Term.replaceUp (reduce (e.within inner) e))) (reduce (e.within inner) e)) := by
  have hgo (k : Nat) (t u : Term) (hk : n ≤ k) (h : C.Rel k t u) :
      Runs C k C.Rel (e.within inner t) (e.within inner u) :=
    coupled_within he (Nat.le_refl inner) (.inl rfl) (Nat.le_trans hn hk) h
  refine Term.coupled_update ht ?_ fun k v w hk h => coupled_reduce (fun i t u hi => hgo i t u (Nat.le_trans hk hi)) he
    (Nat.le_trans hn hk) h
  rw [List.forall₂_map_left_iff, List.forall₂_map_right_iff]
  refine (Term.children_coupled ht).imp fun c d hcd k hk => ?_
  obtain rfl := hself hcd
  have hwithin : Runs C k C.Rel (e.within (inner + 1) c) (e.within (inner + 1) c) :=
    coupled_within he (Nat.le_refl _) (.inl rfl) (Nat.le_trans hn hk) (C.rel_mono hk hcd)
  exact hwithin

theorem holds_update {Q : Nat → Term → Prop} (hQ : NodeInvariant base Q) (he : ∀ t ∈ e.terms, ∀ d ∈ t.nodes, Q base d)
    (hn : base ≤ n) (ht : ∀ d ∈ t.nodes, Q n d) {inner : Nat} {b c : Budget}
    (hrun : t.update (t.children.map (Term.replaceUp (reduce (e.within inner) e))) (reduce (e.within inner) e) b n =
      (.ok (r, c), k)) : ∀ d ∈ r.nodes, Q k d := by
  let C := hQ.coupling (.spare true { fuel := 0 } { fuel := 0 })
  have hself : e.Coupled C := coupled_self fun t ht => ⟨rfl, he t ht⟩
  obtain ⟨-, -, _, ⟨-, hr⟩, -⟩ := coupled_update hself hn ⟨rfl, ht⟩ (fun h => h.1) b r c k hn hrun
  exact hr

theorem keeps_rebuild (cs fs : List Term) : Keeps (liftM (t.rebuild cs fs)) :=
  .of_runs fun n => Coupled.lift (Term.coupled_rebuild (unchanged_self n t)
    (List.forall₂_same.mpr fun c _ => unchanged_self n c) (List.forall₂_same.mpr fun f _ => unchanged_self n f))

theorem keeps_update (inner : Nat) (t : Term) : Keeps
    (t.update (t.children.map (Term.replaceUp (reduce (e.within inner) e))) (reduce (e.within inner) e)) :=
  .of_runs fun n => coupled_update (coupled_unchanged _) (Nat.zero_le n) (unchanged_self n t) fun h => h.1

theorem keeps_rewriteCall (inner : Nat) (label : String) (t : Term) : Keeps (rewriteCall (e.within inner) e label t) :=
  .of_runs fun n => coupled_rewriteCall (go_unchanged inner) (coupled_unchanged _) (Nat.zero_le n) label
    (unchanged_self n t)

theorem keeps_applyBuiltin (label : String) (args : List Term) :
    Keeps (liftM (e.applyBuiltin label args) : Evaluation (Option Term)) :=
  .of_runs fun n => Coupled.lift (coupled_applyBuiltin label (List.forall₂_same.mpr fun a _ => unchanged_self n a))

theorem keeps_frame (inner : Nat) (v : Var) : Keeps (do
    let node ← (liftM (Term.var v) : Evaluation Term)
    return (node, ← reduce (e.within inner) e node)) := by
  have hvar : Keeps (liftM (Term.var v) : Evaluation Term) := .of_runs fun n =>
    Coupled.lift (C := unchanged _) (Pairing.new_var v)
  exact hvar.bind fun node => (keeps_reduce inner node).bind fun u => .pure (node, u)

/-- What one node is evaluated to is the node, the result of a built-in operation or what a rule's result is evaluated
to. -/
theorem reduce_cases {go : Term → Evaluation Term} {b c : Budget} (hrun : reduce go e t b n = (.ok (r, c), k)) :
    r = t ∨ (∃ label, e.applyBuiltin label t.children n = (.ok (some r), k)) ∨
      ∃ label u b₁ b₂ b₃ n₁ n₂, e.applyBuiltin label t.children n = (.ok none, n₁) ∧
        rewriteCall go e label t b₁ n₁ = (.ok (some u, b₂), n₂) ∧ go u b₃ n₂ = (.ok (r, c), k) := by
  by_cases hr : r = t
  · exact .inl hr
  have hsame {b' : Budget} {n' : Nat} {p : Prop} (h : (pure t : Evaluation Term) b' n' = (.ok (r, c), k)) : p := by
    cases h
    exact absurd rfl hr
  refine .inr ?_
  unfold reduce at hrun
  unfold Term.children
  generalize t.node = a at hrun
  cases a with
  | app label args s =>
    cases label with
    | const label =>
      obtain ⟨o, b₁, n₁, hlift, hrun⟩ := Evaluation.exists_of_bind hrun
      obtain ⟨hbuiltin, -⟩ := Evaluation.exists_of_lift hlift
      cases o with
      | some r' =>
        cases hrun
        exact .inl ⟨label, hbuiltin⟩
      | none =>
        obtain ⟨o, b₂, n₂, hrewrite, hrun⟩ := Evaluation.exists_of_bind hrun
        cases o with
        | none => exact hsame hrun
        | some u =>
          obtain ⟨spent, b₃, n₃, hspend, hrun⟩ := Evaluation.exists_of_bind hrun
          rcases hfuel : b₂.fuel with _ | fuel
          · rw [spend_of_fuel_zero hfuel] at hspend
            cases hspend
            exact hsame hrun
          · rw [spend_of_fuel_succ hfuel] at hspend
            cases hspend
            exact .inr ⟨label, u, b₁, b₂, _, n₁, n₂, hbuiltin, hrewrite, hrun⟩
    | _ => exact hsame hrun
  | _ => exact hsame hrun

section Store
variable {b c : Budget} (hts : IsStore base ts) (hrules : ∀ t ∈ e.terms, t ∈ ts)

/-- What a frame becomes is a variable. -/
theorem inert_frame {inner : Nat} {v : Var} {p : Term × Term} (h : Gave (do
      let node ← (liftM (Term.var v) : Evaluation Term)
      return (node, ← reduce (e.within inner) e node)) m k p) : e.Inert depth n p.2 := by
  obtain ⟨b, c, n', k', hrun, -⟩ := h
  obtain ⟨node, b', i, hvar, hrun⟩ := Evaluation.exists_of_bind hrun
  cases hvar
  rw [reduce_eq_self rfl, pure_bind] at hrun
  cases hrun
  exact forall_mem_nodes.mpr ⟨settled_of_isCall rfl, fun _ hc => (List.not_mem_nil hc).elim⟩

include hts hrules

/-- Once the nodes below it are inert, what becomes of a node is. -/
theorem inertBelow_update (hn : base ≤ n) (ht : ∀ d ∈ t.nodes, IsPlaced base ts n d) {inner : Nat}
    (hchildren : ∀ d ∈ t.children, ∀ m k r, n ≤ m → Gave (e.within (inner + 1) d) m k r → e.Inert depth k r)
    (hrun : t.update (t.children.map (Term.replaceUp (reduce (e.within inner) e))) (reduce (e.within inner) e) b n =
      (.ok (u, c), k)) (hc : c.isClean) : e.InertBelow depth k u := by
  have hkeeps (cs fs : List Term) (start : Nat) : Keeps (do
      let t' ← (liftM (t.rebuild cs fs) : Evaluation Term)
      return if t.isEditable then t'.makeEditable start else t') := (keeps_rebuild cs fs).bind fun t' => .pure _
  have hbelow : Keeps (t.children.mapM (Term.replaceUp (reduce (e.within inner) e))) :=
    .mapM fun d _ => keeps_within (inner + 1) d
  have hframes := Keeps.mapM fun v (_ : v ∈ t.frames) => keeps_frame (e := e) inner v
  unfold Term.update at hrun
  rw [List.mapM_map] at hrun
  obtain ⟨start, _, _, hstart, hrun⟩ := Evaluation.exists_of_bind hrun
  cases hstart
  have hrest (cs : List Term) (fs : List (Term × Term)) : Keeps (if Term.allSame t.children cs &&
      fs.all (fun (old, new) => old.same new) then pure t else do
        let t' ← (liftM (t.rebuild cs (fs.map (·.2))) : Evaluation Term)
        return if t.isEditable then t'.makeEditable n else t') := by
    split
    · exact .pure t
    · exact hkeeps _ _ _
  obtain ⟨cs, b₁, n₁, hcs, hrun, hn₁, -, hb₁⟩ := clean_of_bind hbelow (fun cs => hframes.bind (hrest cs)) hrun hc
  obtain ⟨fs, b₂, n₂, hfs, hrun, hn₂, -, hb₂⟩ := clean_of_bind hframes (hrest cs) hrun hc
  have hgave := gave_of_mapM (fun d _ => keeps_within (inner + 1) d) hcs hb₁
  have hinert : ∀ d ∈ cs, e.Inert depth n₂ d := by
    intro d hd
    obtain ⟨x, hx, hgave⟩ := PairedLists.exists_mem hgave.flip hd
    exact (hchildren x hx n n₁ d (Nat.le_refl n) hgave).mono hn₂
  have hinertFrames : ∀ f ∈ fs.map (·.2), e.Inert depth n₂ f := by
    intro f hf
    obtain ⟨p, hp, rfl⟩ := List.mem_map.mp hf
    obtain ⟨v, -, hgave⟩ := PairedLists.exists_mem (gave_of_mapM (fun v _ => keeps_frame inner v) hfs hb₂).flip hp
    exact inert_frame hgave
  split at hrun
  · rename_i hsame
    cases hrun
    rw [Bool.and_eq_true] at hsame
    have hsames : List.Forall₂ (fun d d' => d.same d' = true) t.children cs :=
      PairedLists.of_zip hgave.length_eq fun p hp => List.all_eq_true.mp hsame.1 p hp
    intro d hd
    obtain ⟨d', hd', ⟨b, c, n', k', hrun, -, hn', -⟩, hsame⟩ := PairedLists.exists_mem (PairedLists.and hgave hsames) hd
    have hplaced (x : Term) (hx : x ∈ d.nodes) : IsPlaced base ts n' x :=
      (isPlaced_invariant base ts).mono hn' (ht x (Term.nodes_child hd hx))
    rw [eq_of_same hts hrules (Nat.le_trans hn hn') hplaced hrun hsame]
    exact hinert d' hd'
  · obtain ⟨t', b₃, n₃, hlift, hmade⟩ := Evaluation.exists_of_bind hrun
    obtain ⟨hrebuild, -⟩ := Evaluation.exists_of_lift hlift
    obtain ⟨-, hbelow⟩ := inertBelow_rebuild hgave.length_eq.symm hinert hinertFrames hrebuild
    cases hmade
    split
    · rcases t'.makeEditable_cases n with heq | ⟨-, -, heq⟩
      · rwa [heq]
      · rw [heq]
        exact hbelow
    · exact hbelow

/-- A node that was evaluated to itself is settled. -/
theorem settled_of_reduce (hn : base ≤ n) (ht : ∀ d ∈ t.nodes, IsPlaced base ts n d) {inner : Nat}
    (hinner : inner ≤ depth) (hrun : reduce (e.within inner) e t b n = (.ok (t, c), k)) (hc : c.isClean) : e.Settled depth n t := by
  obtain ⟨hk, hb⟩ := keeps_reduce inner t b n t c k hrun
  have hb := hb hc
  simp only [Budget.isClean, Bool.and_eq_true, Bool.not_eq_true'] at hb hc
  refine ⟨b.fuel - c.fuel, k - n, fun m b' hm hb' hfuel => ?_⟩
  let C := Coupling.renumbered n (m - n) (.spare true b b')
  have hids (d : Term) (hd : d ∈ t.nodes) (hdc : d.isCanonical = false) : d.mark.id < n := (ht d hd).id_lt hdc
  have hrule (u : Term) (hu : u ∈ e.terms) : C.Rel C.base u u :=
    Renumbered.refl fun d hd hdc => Nat.lt_of_lt_of_le (hts.id_lt (isNode_of_rule hrules hu hd) hdc) hn
  have hdeeper (b : Budget) : ¬C.allowance.Followed { b with tooDeep := true } :=
    fun h => Bool.true_eq_false.mp (h.2.1 rfl)
  have hcoupled : Runs C n C.Rel (reduce (e.within inner) e t) (reduce (e.within depth) e t) :=
    coupled_reduce (fun _ _ _ hi => coupled_within (coupled_self hrule) hinner (.inr hdeeper) hi) (coupled_self hrule)
      (Nat.le_refl n) (Renumbered.refl hids)
  obtain ⟨s, r, hs, hs', hcs, hrun', hr⟩ := Coupled.follow (C := C) rfl hcoupled (Nat.le_refl n) hrun hc.1 (fun _ => hc.2)
    (by omega) (hb'.trans hb.2.symm)
  obtain rfl := hr.eq_of_ids hids
  have hspent : b.fuel - c.fuel = s := by
    rw [hcs]
    dsimp only [Budget.spent]
    omega
  have hsecond : ({ b'.spent s with tooDeep := c.tooDeep } : Budget) = b'.spent s := by
    rw [hc.2, ← hb', ← Budget.spent_tooDeep]
  have hstart : n + C.lead = m := by
    show n + (m - n) = m
    omega
  have hend : k + C.lead = m + (k - n) := by
    show k + (m - n) = m + (k - n)
    omega
  rw [hstart, hend, hsecond] at hrun'
  rw [hspent]
  exact ⟨t, hrun', rfl⟩

/-- A call whose arguments are inert is evaluated to an inert term, if what comes of rules is. -/
theorem inert_reduce (hn : base ≤ n) (ht : ∀ d ∈ t.nodes, IsPlaced base ts n d) (hbelow : e.InertBelow depth n t)
    {inner : Nat} (hinner : inner ≤ depth)
    (hgo : ∀ u m k r, base ≤ m → (∀ d ∈ u.nodes, IsPlaced base ts m d) → Gave (e.within inner u) m k r →
      e.Inert depth k r)
    (hrun : reduce (e.within inner) e t b n = (.ok (r, c), k)) (hc : c.isClean) : e.Inert depth k r := by
  have hk : n ≤ k := (keeps_reduce inner t b n r c k hrun).1
  rcases reduce_cases hrun with rfl | ⟨label, hbuiltin⟩ | ⟨label, u, b₁, b₂, b₃, n₁, n₂, hbuiltin, hrewrite, hresult⟩
  · exact forall_mem_nodes.mpr
      ⟨(settled_of_reduce hts hrules hn ht hinner hrun hc).mono hk, fun d hd => (hbelow d hd).mono hk⟩
  · exact inert_applyBuiltin hbelow hbuiltin
  · have hn₁ : n ≤ n₁ := (keeps_applyBuiltin label t.children b n none b n₁ (Build.bind_eq hbuiltin)).1
    have hn₂ : n₁ ≤ n₂ := (keeps_rewriteCall inner label t b₁ n₁ (some u) b₂ n₂ hrewrite).1
    have hplaced : ∀ d ∈ u.nodes, IsPlaced base ts n₂ d :=
      holds_rewriteCall (isPlaced_invariant base ts)
        (fun t ht d hd => isPlaced_of_isNode hts (isNode_of_rule hrules ht hd)) (Nat.le_trans hn hn₁)
        (fun d hd => (isPlaced_invariant base ts).mono hn₁ (ht d hd)) hrewrite
    refine hgo u n₂ k r (by omega) hplaced ⟨b₃, c, n₂, k, hresult, hc, Nat.le_refl n₂, ?_, Nat.le_refl k⟩
    exact (keeps_within inner u b₃ n₂ r c k hresult).1

/-- An evaluation that is refused nothing gives an inert term. -/
theorem inert_within : ∀ inner ≤ depth + 1, ∀ t n k r, base ≤ n → (∀ d ∈ t.nodes, IsPlaced base ts n d) →
    Gave (e.within inner t) n k r → e.Inert depth k r := by
  intro inner
  induction inner with
  | zero =>
    rintro - t n k r - - ⟨b, c, n', k', hrun, hc, -⟩
    cases hrun
    simp [Budget.isClean] at hc
  | succ inner ih =>
    intro hinner t
    induction t using Term.induction with
    | h t iht =>
      rintro n k r hn ht ⟨b, c, n', k', hrun, hc, hn', hk', hk⟩
      rw [within, Term.replaceUp_step] at hrun
      obtain ⟨u, b₁, n₁, hupdate, hrun, hn₁, -, hb₁⟩ :=
        clean_of_bind (keeps_update inner t) (keeps_reduce inner) hrun hc
      have ht' (d : Term) (hd : d ∈ t.nodes) : IsPlaced base ts n' d := (isPlaced_invariant base ts).mono hn' (ht d hd)
      have hbelow : e.InertBelow depth n₁ u := by
        refine inertBelow_update hts hrules (Nat.le_trans hn hn') ht' (fun d hd m k r hm hgave => ?_) hupdate hb₁
        refine iht d hd m k r (by omega) (fun x hx => ?_) hgave
        exact (isPlaced_invariant base ts).mono hm (ht' x (Term.nodes_child hd hx))
      have hplaced : ∀ d ∈ u.nodes, IsPlaced base ts n₁ d :=
        holds_update (isPlaced_invariant base ts)
          (fun t ht d hd => isPlaced_of_isNode hts (isNode_of_rule hrules ht hd)) (Nat.le_trans hn hn') ht' hupdate
      have hinert := inert_reduce hts hrules (by omega) hplaced hbelow (Nat.le_of_succ_le_succ hinner)
        (fun u m k r hm hu hgave => ih (Nat.le_of_succ_le hinner) u m k r hm hu hgave) hrun hc
      exact hinert.mono hk

end Store

/-- However much fuel there is to evaluate an inert term with, what is not refused for lack of fuel gives the term. -/
theorem Inert.eq_of_within (h : e.Inert depth n t) (hm : n ≤ m) {f : Nat} {c : Budget}
    (hrun : e.within (depth + 1) t { fuel := f } m = (.ok (r, c), k)) (hexhausted : c.exhausted = false) :
    r = t ∧ c.tooDeep = false := by
  obtain ⟨s, j, hcosts⟩ := h.costs
  obtain ⟨_, hself, rfl⟩ := hcosts m { fuel := max s f } hm rfl (Nat.le_max_left s f)
  obtain ⟨s', -, -, -, hsame⟩ := within_spare { fuel := max s f } false (Nat.le_refl _) (.inl rfl) hrun hexhausted
    (fun h => (Bool.false_ne_true h).elim) (Nat.le_trans (Nat.le_max_right s f) (Nat.le_add_right _ c.fuel)) rfl
  rw [hself, Prod.mk.injEq, Except.ok.injEq, Prod.mk.injEq] at hsame
  obtain ⟨⟨hr, hc⟩, -⟩ := hsame
  exact ⟨hr.symm, (congrArg Budget.tooDeep hc).symm⟩

/-- What was evaluated without a refusal is evaluated alike with more fuel and where more may be nested. -/
theorem within_more {c : Budget} (hrun : e.within depth t { fuel := n } m = (.ok (r, c), k))
    (hexhausted : c.exhausted = false) (hdeep : c.tooDeep = false) {depth' n' : Nat} (hdepth : depth ≤ depth')
    (hn : n ≤ n') : e.within depth' t { fuel := n' } m = (.ok (r, { fuel := n' - c.steps, steps := c.steps }), k) := by
  obtain ⟨s, -, -, hc, hrun'⟩ := within_spare { fuel := n' } true hdepth (.inr rfl) hrun hexhausted
    (fun _ => hdeep) (Nat.le_trans hn (Nat.le_add_right n' c.fuel)) rfl
  have hsteps : c.steps = s := by
    rw [hc]
    exact Nat.zero_add s
  rw [hrun', hdeep, hsteps]
  dsimp only [Budget.spent]
  rw [Nat.zero_add]

/-- Evaluation comes to a stable result, which does not depend on fuel that is left. When a term of a store is evaluated
and nothing is refused, more fuel gives the same term by as many rule applications. The result in its turn is
evaluated to itself at any later time: with any fuel that does not run out, and at one cost. `evaluate` is `within`
with the nesting limit for both depths. -/
theorem within_stable {N N' n : Nat} {c : Budget} (hstore : IsStore N (t :: e.terms))
    (hrun : e.within depth t { fuel := n } N = (.ok (r, c), N')) (hexhausted : c.exhausted = false)
    (hdeep : c.tooDeep = false) {depth' : Nat} (hdepth : depth ≤ depth') :
    (∀ m ≥ n, e.within depth' t { fuel := m } N = (.ok (r, { fuel := m - c.steps, steps := c.steps }), N')) ∧
      (∀ M ≥ N', ∀ m r' c' M', e.within depth' r { fuel := m } M = (.ok (r', c'), M') → c'.exhausted = false →
        r' = r ∧ c'.tooDeep = false) ∧
      ∃ s, ∀ M ≥ N', ∀ m ≥ s, ∃ M',
        e.within depth' r { fuel := m } M = (.ok (r, { fuel := m - s, steps := s }), M') := by
  obtain ⟨inner, rfl⟩ : ∃ inner, depth = inner + 1 := by
    cases depth with
    | zero =>
      cases hrun
      exact (Bool.true_eq_false.mp hdeep).elim
    | succ inner => exact ⟨inner, rfl⟩
  obtain ⟨outer, rfl⟩ := Nat.exists_eq_add_of_le' (Nat.le_trans (Nat.le_add_left 1 inner) hdepth)
  have hclean : c.isClean := by rw [Budget.isClean, hexhausted, hdeep]; rfl
  have hplaced : ∀ d ∈ t.nodes, IsPlaced N (t :: e.terms) N d := fun d hd =>
    isPlaced_of_isNode hstore (Term.isNode_iff_mem_nodes.mpr ⟨t, List.mem_cons_self, hd⟩)
  have hgave : Gave (e.within (inner + 1) t) N N' r :=
    ⟨_, c, N, N', hrun, hclean, Nat.le_refl N, (keeps_within _ t _ _ _ _ _ hrun).1, Nat.le_refl N'⟩
  have hinert : e.Inert outer N' r :=
    inert_within hstore (fun t ht => List.mem_cons_of_mem _ ht) (inner + 1) hdepth t N N' r (Nat.le_refl N) hplaced
      hgave
  refine ⟨fun m => within_more hrun hexhausted hdeep hdepth, fun M hM m r' c' M' => hinert.eq_of_within hM, ?_⟩
  obtain ⟨s, j, hcosts⟩ := hinert.costs
  refine ⟨s, fun M hM m hm => ?_⟩
  obtain ⟨_, hself, rfl⟩ := hcosts M { fuel := m } hM rfl hm
  refine ⟨M + j, hself.trans ?_⟩
  dsimp only [Budget.spent]
  rw [Nat.zero_add]

/-- A function that counts down to zero. -/
def countdown : Evaluator where
  signature := {}
  functions := ["down"]
  functionRules :=
    let x (id : Nat) : Term := ⟨⟨id, false⟩, .var ⟨"X", .int, 0⟩⟩
    let call (id : Nat) (t : Term) : Term := ⟨⟨id, false⟩, .app (.const "down") [t] .int⟩
    let positive : Term := ⟨⟨1, false⟩, .app (.const "_>Int_") [x 0, .int 0] .bool⟩
    let less : Term := ⟨⟨3, false⟩, .app (.const "_-Int_") [x 2, .int 1] .int⟩
    let rule (left right : Term) (requires : List Term) : Rule :=
      { kind := .function, body := ⟨⟨11, false⟩, .rewrite left right⟩, requires, left, right, lookups := .truth }
    [("down", rule (call 5 (x 4)) (call 6 less) [positive]), ("down", rule (call 8 (x 7)) (.int 0) [])]
  anywhereRules := []

/-- Next to a call with a variable. -/
def besideOpen (id : Nat) (t : Term) : Term :=
  let y : Term := ⟨⟨9, false⟩, .var ⟨"Y", .int, 0⟩⟩
  ⟨⟨id, false⟩, .app (.const "pair") [t, ⟨⟨10, false⟩, .app (.const "down") [y] .int⟩] .kItem⟩

def fromTwo : Term := besideOpen 13 ⟨⟨12, false⟩, .app (.const "down") [.int 2] .int⟩

theorem isStore_fromTwo : IsStore 14 (fromTwo :: countdown.terms) where
  toIsHeap := .of_nodes Term.mem_subterms_of_isNode (by decide) (by decide) (by decide)
  id_eq_zero ht := by
    have h : ∀ t ∈ (fromTwo :: countdown.terms).flatMap Term.subterms, t.isCanonical → t.mark.id = 0 := by
      decide
    exact h _ (Term.mem_subterms_of_isNode ht)

theorem within_stable_fromTwo :
    let value := besideOpen 24 (.int 0)
    IsStore 14 (fromTwo :: countdown.terms) ∧
      countdown.evaluate fromTwo { fuel := 5 } 14 = (.ok (value, { fuel := 2, steps := 3 }), 25) ∧
      (∀ m ≥ 5, countdown.evaluate fromTwo { fuel := m } 14 = (.ok (value, { fuel := m - 3, steps := 3 }), 25)) ∧
      (∀ M ≥ 25, ∀ m r c M', countdown.evaluate value { fuel := m } M = (.ok (r, c), M') → c.exhausted = false →
        r = value ∧ c.tooDeep = false) ∧
      ∃ s, ∀ M ≥ 25, ∀ m ≥ s, ∃ M', countdown.evaluate value { fuel := m } M =
        (.ok (value, { fuel := m - s, steps := s }), M') := by
  intro value
  have hrun : countdown.evaluate fromTwo { fuel := 5 } 14 = (.ok (value, { fuel := 2, steps := 3 }), 25) := rfl
  exact ⟨isStore_fromTwo, hrun, within_stable isStore_fromTwo hrun rfl rfl (Nat.le_refl nestingLimit)⟩

end Evaluator

end RuleCompiler
