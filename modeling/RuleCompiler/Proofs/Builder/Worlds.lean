import RuleCompiler.Proofs.Builder.Stages
import RuleCompiler.Proofs.Term.Instance

/-! # Variables of what is built

A world is a stage: it says what is known of the nodes made so far. What builders and walks make of terms
of a world is a term of a later one, and has no variables but those of what it was made of. A node that is
kept because its children stayed the nodes they were has the variables of these, since nodes with one
number say the same. -/

namespace RuleCompiler

open Build (Leads)

instance : Stage World where
  le := (· ≤ ·)
  le_refl := World.le_refl
  le_trans _ _ _ := World.le_trans
  next := World.next

theorem Build.Leads.of_makes {α : Type} {w : World} {x : Build α} {p : World → α → Prop} (h : Makes w x p) :
    Leads w p x := by
  obtain ⟨a, w', hrun, hw, -, hp⟩ := h
  refine ⟨w', hw, (congrArg Prod.snd hrun).symm, fun b hb => ?_⟩
  have hx : (x w.next).1 = .ok a := congrArg Prod.fst hrun
  cases hx.symm.trans hb
  exact hp

namespace World

/-- A term of the world, all of whose variables satisfy `Q`. -/
structure HasOver (w : World) (Q : Var → Prop) (t : Term) : Prop where
  has : w.Has t
  vars : ∀ v ∈ t.vars, Q v

variable {w w' : World} {P Q : Var → Prop} {t u c : Term} {v : Var}

namespace HasOver

theorem mono (hw : w ≤ w') (h : w.HasOver Q t) : w'.HasOver Q t := ⟨h.has.mono hw, h.vars⟩

theorem imp (h : w.HasOver P t) (hPQ : ∀ v, P v → Q v) : w.HasOver Q t :=
  ⟨h.has, fun v hv => hPQ v (h.vars v hv)⟩

theorem of_var (h : w.HasOver Q t) (hn : t.node = .var v) : Q v := by
  refine h.vars v ?_
  rw [Term.vars_of_var hn]
  exact List.mem_singleton_self v

theorem frame (h : w.HasOver Q t) (hv : v ∈ t.frames) : Q v := by
  refine h.vars v ?_
  rw [Term.vars_of_not_isVar]
  · exact List.mem_append_right _ hv
  · cases hvar : t.isVar with
    | false => rfl
    | true =>
      obtain ⟨w, hn⟩ := Term.exists_var hvar
      rw [Term.frames, hn] at hv
      cases hv

theorem child (h : w.HasOver Q t) (hc : c ∈ t.children) : w.HasOver Q c := by
  refine ⟨h.has.child hc, fun v hv => h.vars v ?_⟩
  rw [Term.vars_of_not_isVar]
  · exact List.mem_append_left _ (List.mem_flatMap.mpr ⟨c, hc, hv⟩)
  · cases hvar : t.isVar with
    | false => rfl
    | true =>
      obtain ⟨w, hn⟩ := Term.exists_var hvar
      rw [Term.children, hn] at hc
      cases hc

/-- A node over such children and frames. -/
theorem of_parts (ht : w.Has t) (hvar : ∀ v, t.node = .var v → Q v) (hc : ∀ c ∈ t.children, w.HasOver Q c)
    (hf : ∀ v ∈ t.frames, Q v) : w.HasOver Q t := by
  refine ⟨ht, fun v hv => ?_⟩
  cases h : t.isVar with
  | true =>
    obtain ⟨x, hn⟩ := Term.exists_var h
    rw [Term.vars_of_var hn, List.mem_singleton] at hv
    exact hv ▸ hvar x hn
  | false =>
    rw [Term.vars_of_not_isVar h] at hv
    rcases List.mem_append.mp hv with hv | hv
    · obtain ⟨c, hm, hv⟩ := List.mem_flatMap.mp hv
      exact (hc c hm).vars v hv
    · exact hf v hv

theorem of_isCanonical (h : t.isCanonical) : w.HasOver Q t := by
  have hground : t.vars = [] := (Term.isGround_iff_vars t).mp (Term.isGround_of_isCanonical h)
  refine ⟨.intro t (fun hc => by rw [h] at hc; cases hc) fun c hc => ?_, fun v hv => ?_⟩
  · rw [Term.children_of_isCanonical h] at hc
    cases hc
  · rw [hground] at hv
    cases hv

/-- Nodes that are the same have the same variables. -/
theorem of_same (h : w.HasOver Q u) (ht : w.Has t) (hsame : t.same u) : w.HasOver Q t := by
  refine ⟨ht, fun v hv => h.vars v ?_⟩
  rwa [← Term.vars_congr (Term.beq_iff_expr.mpr (ht.expr_eq_of_same h.has hsame))]

/-- Which contents a node has is all that counts. -/
theorem of_node (h : w.HasOver Q t) (hnode : u.node = t.node) (hid : u.mark.id = t.mark.id) : w.HasOver Q u := by
  have hvars : u.vars = t.vars := by
    rw [Term.vars_eq, Term.vars_eq t, hnode, Term.children, Term.frames, hnode]
    rfl
  refine ⟨.intro u (fun hc => ?_) fun c hc => h.has.child ?_, hvars ▸ h.vars⟩
  · rw [hid, Term.expr_of_node hnode]
    exact h.has.node (by rwa [Term.isCanonical, ← hnode])
  · rwa [Term.children, ← hnode]

end HasOver

/-! ### Builders -/

theorem leads_new {m : Node Term} (hvar : ∀ v, m = .var v → Q v) (hc : ∀ c ∈ m.children, w.HasOver Q c)
    (hf : ∀ v ∈ m.frames, Q v) : Leads w (fun w t => w.HasOver Q t) (Term.new m) := by
  refine (Leads.of_makes (Term.makes_new fun c h => (hc c h).has)).mono fun w' t hw ⟨ht, hn⟩ => ?_
  refine .of_parts ht (fun v h => hvar v (hn ▸ h)) (fun c h => (hc c ?_).mono hw) fun v h => hf v ?_
  · rwa [Term.children, hn] at h
  · rwa [Term.frames, hn] at h

theorem leads_var (w : World) (v : Var) : Leads w (fun w t => w.Has t ∧ t.node = .var v) (Term.var v) :=
  .of_makes (Term.makes_new (List.forall_mem_nil _))

theorem keeps_hasOver (w : World) (Q : Var → Prop) : Keeps w (fun w t => w.HasOver Q t) Q where
  mono := HasOver.mono
  part h _ hc := h.child hc
  frame h hv := h.frame hv
  var h hn := h.of_var hn
  newVar _ hv := leads_new (fun _ h => by cases h; exact hv) (List.forall_mem_nil _) (List.forall_mem_nil _)
  new _ hm hc hf := leads_new (fun _ h => by subst h; cases hm) hc hf

/-- A node is made again over other children. -/
theorem leads_rebuild (ht : w.Has t) (hvar : ∀ v, t.node = .var v → Q v) {cs fs : List Term}
    (hlen : cs.length = t.children.length) (hcs : ∀ c ∈ cs, w.HasOver Q c) (hfs : ∀ f ∈ fs, w.HasOver Q f) :
    Leads w (fun w u => w.HasOver Q u) (t.rebuild cs fs) := by
  refine Term.leads_rebuild_node (keeps_hasOver w Q) (le_refl w) hcs hfs (fun hself => ?_) (fun l r _ hlr => ?_)
    fun m _ hvar hframes hc => ?_
  · rcases hself with hleaf | hne
    · refine .of_parts ht hvar (fun c hc => ?_) fun v hv => ?_
      · rw [Term.children_of_isLeaf hleaf] at hc
        cases hc
      · rw [Term.frames_of_isLeaf hleaf] at hv
        cases hv
    · exact absurd hlen hne
  · subst hlr
    exact leads_new (fun _ h => by cases h) hcs (List.forall_mem_nil _)
  · exact leads_new (fun v h => by rw [h] at hvar; cases hvar) hc (by rw [hframes]; exact List.forall_mem_nil _)

/-! ### Walks -/

theorem leads_nextId (w : World) : Leads w (fun _ _ => True) (liftM Build.nextId : Build Nat) :=
  ⟨w, le_refl w, rfl, fun _ _ => trivial⟩

/-- A node whose children are replaced by terms over `Q` is a term over `Q`, kept or made again. -/
theorem leads_update {f frame : Term → Build Term} (ht : w.Has t) (hvar : ∀ v, t.node = .var v → Q v)
    (hf : ∀ c ∈ t.children, ∀ w', w ≤ w' → Leads w' (fun w u => w.HasOver Q u) (f c))
    (hframe : ∀ v ∈ t.frames, ∀ w' u, w ≤ w' → w'.Has u → u.node = .var v →
      Leads w' (fun w u => w.HasOver Q u) (frame u)) :
    Leads w (fun w u => w.HasOver Q u) (t.update (t.children.map f) frame) := by
  unfold Term.update
  refine (leads_nextId w).bind fun w₁ start hw₁ _ => ?_
  rw [List.mapM_map]
  refine (Leads.mapM (r := fun w _ u => w.HasOver Q u) HasOver.mono fun c hc w' hw' =>
    hf c hc w' (le_trans hw₁ hw')).bind fun w₂ cs hw₂ hcs => ?_
  have hw₂ := le_trans hw₁ hw₂
  let r (w : World) (v : Var) (e : Term × Term) : Prop := w.Has e.1 ∧ e.1.node = .var v ∧ w.HasOver Q e.2
  have hframes : Leads w₂ (fun w => List.Forall₂ (r w) t.frames) (t.frames.mapM fun v => do
      let node ← (liftM (Term.var v) : Build Term)
      return (node, ← frame node)) := by
    refine Leads.mapM (fun hw h => ⟨h.1.mono hw, h.2.1, h.2.2.mono hw⟩) fun v hv w' hw' => ?_
    refine (leads_var w' v).bind fun i node hi ⟨hnode, hn⟩ => ?_
    refine (hframe v hv i node (le_trans hw₂ (le_trans hw' hi)) hnode hn).bind fun j u hj hu => ?_
    exact .pure ⟨hnode.mono hj, hn, hu⟩
  refine hframes.bind fun w₃ es hw₃ hes => ?_
  have ht := ht.mono (le_trans hw₂ hw₃)
  have hcs : List.Forall₂ (fun _ u => w₃.HasOver Q u) t.children cs := hcs.imp fun _ _ h => h.mono hw₃
  refine .ite (fun hsame => .pure ?_) fun _ => ?_
  · rw [Bool.and_eq_true] at hsame
    have hsames : List.Forall₂ (fun c u => c.same u) t.children cs :=
      PairedLists.of_zip hcs.length_eq (List.all_eq_true.mp hsame.1)
    refine .of_parts ht hvar (fun c hc => ?_) fun v hv => ?_
    · obtain ⟨u, -, hu, hcu⟩ := PairedLists.exists_mem (PairedLists.and hcs hsames) hc
      exact hu.of_same (ht.child hc) hcu
    · obtain ⟨e, he, hold, hn, hnew⟩ := PairedLists.exists_mem hes hv
      exact (hnew.of_same hold (List.all_eq_true.mp hsame.2 e he)).of_var hn
  · have hall : ∀ c ∈ cs, w₃.HasOver Q c := fun c hc => by
      obtain ⟨_, -, h⟩ := PairedLists.exists_mem hcs.flip hc
      exact h
    have hfs : ∀ f ∈ es.map (·.2), w₃.HasOver Q f := fun f hf => by
      obtain ⟨e, he, rfl⟩ := List.mem_map.mp hf
      obtain ⟨_, -, h⟩ := PairedLists.exists_mem hes.flip he
      exact h.2.2
    refine (leads_rebuild ht hvar hcs.length_eq.symm hall hfs).bind fun w₄ u _ hu => .pure ?_
    split
    · exact hu.of_node (Term.makeEditable_node start u) (Term.makeEditable_id start u)
    · exact hu

/-- Replacing nodes from the top down: what `visit` answers is over `Q`, and it answers for every variable
that does not satisfy `Q`. -/
theorem leads_replaceDown {visit : Term → Build (Option Term)}
    (hvisit : ∀ w' u, w ≤ w' → w'.HasOver P u → Leads w' (fun w o => (∀ u', o = some u' → w.HasOver Q u') ∧
      (o = none → ∀ v, u.node = .var v → Q v)) (visit u)) (ht : w.HasOver P t) :
    Leads w (fun w u => w.HasOver Q u) (t.replaceDown visit) := by
  induction t using Term.induction generalizing w with
  | h t ih =>
    rw [Term.replaceDown, Term.fold_eq, ← Term.replaceDown]
    refine (hvisit w t (le_refl w) ht).bind fun w₁ o hw₁ ho => ?_
    cases o with
    | some u => exact .pure (ho.1 u rfl)
    | none =>
      refine leads_update (ht.has.mono hw₁) (ho.2 rfl) (fun c hc i hi => ?_) fun v hv i u hi hu hn => ?_
      · have hw := le_trans hw₁ hi
        exact ih c hc (fun j u hj => hvisit j u (le_trans hw hj)) ((ht.child hc).mono hw)
      · have hvars {R : Var → Prop} (hR : R v) : ∀ x ∈ u.vars, R x := fun x hx => by
          rw [Term.vars_of_var hn, List.mem_singleton] at hx
          exact hx ▸ hR
        refine (hvisit i u (le_trans hw₁ hi) ⟨hu, hvars (ht.frame hv)⟩).bind fun j o hj ho => .pure ?_
        cases o with
        | some u' => exact ho.1 u' rfl
        | none => exact ⟨hu.mono hj, hvars (ho.2 rfl v hn)⟩

/-- The variables of an instance are those that are not bound, and those of the values of the others. -/
theorem leads_substitute {value : Var → Option Term} (ht : w.HasOver P t)
    (hvalue : ∀ v u, P v → value v = some u → w.HasOver Q u) (hkept : ∀ v, P v → value v = none → Q v) :
    Leads w (fun w u => w.HasOver Q u) (t.substitute value) := by
  refine leads_replaceDown (P := P) (fun w' u hw hu => .pure ⟨fun u' hu' => ?_, fun hnone v hn => ?_⟩) ht
  · obtain ⟨v, hv, hu'⟩ := Option.bind_eq_some_iff.mp hu'
    exact (hvalue v u' (hu.of_var (Term.node_of_asVar? hv)) hu').mono hw
  · rw [Term.asVar?_of_var hn, Option.bind_some] at hnone
    exact hkept v (hu.of_var hn) hnone

end World

end RuleCompiler
