import RuleCompiler.Proofs.Matching.Bindings
import RuleCompiler.Proofs.Matching.Reads

/-! # Instances of patterns that are read

Whether a node is kept or made again goes by numbers. Bound terms and whatever is built from them have
numbers that no node with variables has, so under the bindings every such node is made again, and what
is made in the end is what the pattern reads as. -/

namespace RuleCompiler

open Build (From Gives Always)

namespace Term

/-- Whether a node with variables has the number. -/
def opens (p : Term) (i : Nat) : Bool := p.anyNode fun u => !u.isGround && u.mark.id == i

theorem opens_self {p : Term} (h : p.isGround = false) : p.opens p.mark.id := by
  rw [opens, anyNode_eq, h, beq_self_eq_true]
  rfl

theorem opens_child {p c : Term} (hc : c ∈ p.children) {i : Nat} (h : c.opens i) : p.opens i := by
  rw [opens, anyNode_eq, Bool.or_eq_true, Bool.or_eq_true]
  exact .inl (.inr (List.any_eq_true.mpr ⟨c, hc, h⟩))

/-- Whether the node was made before the number `k`, and not for a variable, a rewrite or a
disjunction; no node with variables of `p` has its number. -/
def isForeign (p : Term) (k : Nat) (u : Term) : Bool :=
  !u.isVar && !u.isRewrite && !u.isDisjunction && (u.isCanonical || u.mark.id < k && !p.opens u.mark.id)

/-- The term has such nodes only. -/
abbrev Foreign (p : Term) (k : Nat) (t : Term) : Prop := t.everyNode (isForeign p k)

variable {p t c : Term} {n k : Nat}

theorem isForeign_mono {m : Nat} (hm : k ≤ m) (h : isForeign p k t) : isForeign p m t := by
  simp only [isForeign, Bool.and_eq_true, Bool.or_eq_true, decide_eq_true_eq] at h ⊢
  exact ⟨h.1, h.2.imp_right fun h => ⟨Nat.lt_of_lt_of_le h.1 hm, h.2⟩⟩

theorem Foreign.mono {m : Nat} (hm : k ≤ m) (h : Foreign p k t) : Foreign p m t :=
  everyNode_mono h fun _ => isForeign_mono hm

theorem Foreign.frames_eq (h : Foreign p k t) : t.frames = [] := by
  rw [List.eq_nil_iff_forall_not_mem]
  intro v hv
  have hnode := (everyNode_iff.mp h).2.2 v hv
  simp [isForeign, isVar, Node.isVar] at hnode

theorem Foreign.isCompared (h : Foreign p k t) : Matching.isCompared t :=
  Matching.isCompared_of_everyNode <| everyNode_mono h fun u hu => by
    simp only [isForeign, Bool.and_eq_true] at hu ⊢
    exact hu.1

theorem Foreign.isVar (h : Foreign p k t) : t.isVar = false := by
  have hnode := (everyNode_iff.mp h).1
  simp_all [isForeign]

/-- Builders keep terms foreign to `p` if they number nodes from behind those of `p`. -/
theorem foreign_kept (hp : ∀ i, p.opens i → i < n) : Kept n (Foreign p) fun _ => False where
  mono := Foreign.mono
  part h _ hc := (everyNode_iff.mp h).2.1 _ hc
  frame h hv := by rw [h.frames_eq] at hv; cases hv
  var h hn := by
    have hvar := h.isVar
    rw [Term.isVar, hn] at hvar
    cases hvar
  newVar _ h := h.elim
  new {k m} hk hm hc hf := by
    have hframes : m.frames = [] := List.eq_nil_iff_forall_not_mem.mpr hf
    have hkind {u : Term} (hu : u.node = m) :
        (!u.isVar && !u.isRewrite && !u.isDisjunction) = true := by
      rw [Term.isVar, isRewrite, isDisjunction, hu]
      cases m <;> first | rfl | cases hm
    unfold Term.new
    refine .ite (fun hcan => .pure ?_) fun hcan => ?_
    · refine everyNode_iff.mpr ⟨?_, hc, by simp [frames, hframes]⟩
      rw [isForeign, hkind rfl, isCanonical, hcan]
      rfl
    · rintro t k' ⟨⟩
      refine ⟨Nat.le_succ k, everyNode_iff.mpr ⟨?_, fun c h => (hc c h).mono (Nat.le_succ k),
        by simp [frames, hframes]⟩⟩
      have hnew : p.opens k = false := by
        rw [← Bool.not_eq_true]
        exact fun h => Nat.lt_irrefl _ (Nat.lt_of_lt_of_le (hp k h) hk)
      rw [isForeign, hkind rfl]
      simp [hnew]

theorem Foreign.congr {u : Term} (hnode : u.node = t.node) (hid : u.mark.id = t.mark.id)
    (h : Foreign p k t) : Foreign p k u := by
  obtain ⟨ht, hc, hf⟩ := everyNode_iff.mp h
  refine everyNode_iff.mpr ⟨?_, ?_, ?_⟩
  · rwa [isForeign, Term.isVar, isRewrite, isDisjunction, isCanonical, hnode, hid]
  · rwa [children, hnode]
  · rwa [frames, hnode]

theorem foreign_of_isGround (ht : t.isGround)
    (h : t.everyNode fun u => !u.isGround || isForeign p k u) : Foreign p k t := by
  induction t using Term.induction with
  | h t ih =>
    obtain ⟨hnode, hc, -⟩ := everyNode_iff.mp h
    obtain ⟨-, hchildren, hframes⟩ := isGround_iff.mp ht
    rw [ht] at hnode
    refine everyNode_iff.mpr ⟨hnode, fun c hm => ih c hm (hchildren c hm) (hc c hm), ?_⟩
    rw [hframes]
    exact List.forall_mem_nil _

/-- A foreign node is not one with variables. -/
theorem same_eq_false (h : c.isGround = false) (hid : p.opens c.mark.id) (ht : Foreign p k t) :
    c.same t = false := by
  have hcan : c.isCanonical = false := by
    rw [← Bool.not_eq_true]
    exact fun hcan => by rw [isGround_of_isCanonical hcan] at h; cases h
  have hnode := (everyNode_iff.mp ht).1
  simp only [isForeign, Bool.and_eq_true, Bool.or_eq_true, Bool.not_eq_true'] at hnode
  rw [same, hcan, if_neg Bool.false_ne_true, Bool.and_eq_false_iff]
  rcases hnode.2 with hcan' | ⟨-, hno⟩
  · exact .inl (by rw [hcan']; rfl)
  · refine .inr (beq_false_of_ne fun heq => ?_)
    rw [← heq, hid] at hno
    cases hno

theorem allSame_eq_false {ts us : List Term} (hlen : us.length = ts.length) (hc : c ∈ ts)
    (h : ∀ u ∈ us, c.same u = false) : allSame ts us = false := by
  obtain ⟨i, hi, rfl⟩ := List.getElem_of_mem hc
  have hi' : i < us.length := hlen ▸ hi
  have hzip : (ts[i], us[i]) ∈ ts.zip us :=
    List.mem_iff_getElem.mpr ⟨i, by rw [List.length_zip]; omega, List.getElem_zip⟩
  rw [← Bool.not_eq_true, allSame, List.all_eq_true]
  intro hall
  have hsame : ts[i].same us[i] := hall _ hzip
  rw [h _ (List.getElem_mem _)] at hsame
  cases hsame

end Term

namespace Matching
variable {σ : Substitution} {root p s : Term} {n : Nat}

open Term (Foreign)

/-- What a frame is bound to takes the place of a new node. -/
theorem Names.gives {v : Var} {k : Nat} (h : Names σ v s) (hk : n ≤ k)
    (hσ : ∀ v t, σ.get? v = some t → Foreign root n t) :
    Gives k (fun m e => e.1.same e.2 = false ∧ Foreign root m e.2 ∧ e.2 == s) (do
      let node ← (liftM (Term.var v) : Build Term)
      return (node, ← (return (node.asVar?.bind σ.get?).getD node : Build Term))) := by
  obtain ⟨t, ht, heq, -⟩ := h
  have hforeign := hσ v t ht
  refine Gives.bind (p := fun m u => u.node = .var v ∧ u.mark.id = k ∧ k < m)
    ⟨_, _, rfl, Nat.le_succ k, rfl, rfl, Nat.lt_succ_self k⟩ fun m u hm ⟨hu, hid, hlt⟩ => ?_
  rw [Term.asVar?_of_var hu, Option.bind_some, ht]
  refine .pure ⟨?_, hforeign.mono (Nat.le_trans hk hm), heq⟩
  have hnode := (Term.everyNode_iff.mp hforeign).1
  simp only [Term.isForeign, Bool.and_eq_true, Bool.or_eq_true, decide_eq_true_eq] at hnode
  have hcan : u.isCanonical = false := by rw [Term.isCanonical, hu]; rfl
  dsimp only
  rw [Option.getD_some, Term.same, hcan, if_neg Bool.false_ne_true, Bool.and_eq_false_iff]
  rcases hnode.2 with hcan' | ⟨hold, -⟩
  · exact .inl (by rw [hcan']; rfl)
  · exact .inr (beq_false_of_ne (by omega))

/-- A pattern with variables has a child with variables, or it is a variable or has frames. -/
theorem exists_open (h : p.isGround = false) (hvar : p.isVar = false) :
    (∃ c ∈ p.children, c.isGround = false) ∨ p.frames ≠ [] := by
  by_contra hno
  push Not at hno
  have hground : p.isGround := Term.isGround_iff.mpr
    ⟨hvar, fun c hc => by simpa using hno.1 c hc, hno.2⟩
  rw [h] at hground
  cases hground

theorem not_isLeaf (h : p.isGround = false) (hvar : p.isVar = false) : ¬p.node.isLeaf := by
  intro hleaf
  have hopen := exists_open h hvar
  rw [Term.children, Term.frames] at hopen
  unfold Node.isLeaf at hleaf
  split at hleaf <;> simp_all [Node.children, Node.frames]

/-- Foreign children and other frames are not those that a node with variables had. -/
theorem moved {k : Nat} {us : List Term} {es : List (Term × Term)} (hp : p.isGround = false)
    (hvar : p.isVar = false) (hopens : ∀ i, p.opens i → root.opens i)
    (hlen : us.length = p.children.length) (hus : ∀ u ∈ us, Foreign root k u)
    (hes : List.Forall₂ (fun _ (e : Term × Term) => e.1.same e.2 = false) p.frames es) :
    (Term.allSame p.children us && es.all fun e => e.1.same e.2) = false := by
  rw [Bool.and_eq_false_iff]
  rcases exists_open hp hvar with ⟨c, hc, hopen⟩ | hne
  · have hid := hopens _ (Term.opens_child hc (Term.opens_self hopen))
    exact .inl (Term.allSame_eq_false hlen hc fun u hu => Term.same_eq_false hopen hid (hus u hu))
  · obtain ⟨v, hv⟩ := List.exists_mem_of_ne_nil _ hne
    obtain ⟨e, he, hsame⟩ := PairedLists.exists_mem hes hv
    exact .inr (List.all_eq_false.mpr ⟨e, he, by rw [hsame]; exact Bool.false_ne_true⟩)

/-- The instance of a pattern that reads as `s` is `s`. -/
theorem Reads.gives (hroot : ∀ i, root.opens i → i < n)
    (hσ : ∀ v t, σ.get? v = some t → Foreign root n t) (h : Reads σ p s)
    (hopens : ∀ i, p.opens i → root.opens i)
    (hground : p.everyNode fun u => !u.isGround || Term.isForeign root n u) :
    ∀ k, n ≤ k → Gives k (fun m u => Foreign root m u ∧ u == s) (σ.apply p) := by
  induction p using Term.induction generalizing s with
  | h p ih =>
    intro k hk
    cases h with
    | ground hp heq =>
      rw [Substitution.apply, Term.substitute_of_isGround hp]
      exact .pure ⟨(Term.foreign_of_isGround hp hground).mono hk, heq⟩
    | @var _ _ v hn h =>
      obtain ⟨t, ht, heq, -⟩ := h
      rw [Substitution.apply, Term.substitute_of_var hn, ht]
      exact .pure ⟨(hσ v t ht).mono hk, heq⟩
    | @node _ _ cs fs hp hvar hchoice hc hf hmade =>
      obtain ⟨-, hbelow, -⟩ := Term.everyNode_iff.mp hground
      rw [Substitution.apply, Term.substitute_eq hvar]
      refine Term.gives_update
        (C := fun m us => List.Forall₂ (fun u s => Foreign root m u ∧ u == s) us cs)
        (F := fun m es => List.Forall₂ (fun (e : Term × Term) s =>
          e.1.same e.2 = false ∧ Foreign root m e.2 ∧ e.2 == s) es fs)
        (fun hm hus => hus.imp fun _ _ h => ⟨h.1.mono hm, h.2⟩) (fun m hm => ?_)
        (fun m hm => ?_) (fun m us es hus hes => ?_) fun m us es hm hus hes => ?_
      · rw [List.mapM_map]
        exact Gives.mapM (R := fun m u s => Foreign root m u ∧ u == s)
          (fun hm h => ⟨h.1.mono hm, h.2⟩) hc fun c hc d hd k' hk' =>
            ih c hc hd (fun i hi => hopens i (Term.opens_child hc hi)) (hbelow c hc) k'
              (Nat.le_trans hk (Nat.le_trans hm hk'))
      · exact Gives.mapM (R := fun m (e : Term × Term) s =>
            e.1.same e.2 = false ∧ Foreign root m e.2 ∧ e.2 == s)
          (fun hm h => ⟨h.1, h.2.1.mono hm, h.2.2⟩) hf fun v _ t ht k' hk' =>
            ht.gives (Nat.le_trans hk (Nat.le_trans hm hk')) hσ
      · refine moved (k := m) hp hvar hopens (hus.length_eq.trans hc.length_eq.symm) (fun u hu => ?_)
          (PairedLists.comp (fun _ _ _ _ h => h.1) hf hes.flip)
        obtain ⟨d, -, hd⟩ := PairedLists.exists_mem hus hu
        exact hd.1
      · have hframes : ∀ u ∈ es.map (·.2), Foreign root m u := fun u hu => by
          obtain ⟨e, he, rfl⟩ := List.mem_map.mp hu
          obtain ⟨d, -, hd⟩ := PairedLists.exists_mem hes he
          exact hd.2.1
        have hchildren : ∀ u ∈ us, Foreign root m u := fun u hu => by
          obtain ⟨d, -, hd⟩ := PairedLists.exists_mem hus hu
          exact hd.1
        have hkept := Term.kept_rebuild (Term.foreign_kept hroot) (Nat.le_trans hk hm) hchildren hframes
          (t := p) ?_ ?_
        · refine (Gives.of_always hkept (hmade us _ (hus.imp fun _ _ h => h.2) ?_)).mono
            fun m' u _ ⟨hu, hus⟩ v hnode hid => ⟨hu.congr hnode hid, ?_⟩
          · rw [Term.Equal, List.forall₂_map_left_iff]
            exact hes.imp fun _ _ h => h.2.2
          · rwa [Term.beq_iff_mapChildren, hnode, ← Term.beq_iff_mapChildren]
        · rintro (hleaf | hlen)
          · exact absurd hleaf (not_isLeaf hp hvar)
          · exact absurd (hus.length_eq.trans hc.length_eq.symm) hlen
        · intro h
          rw [hchoice] at h
          cases h

end Matching

end RuleCompiler
