import RuleCompiler.Formula.Basic
import RuleCompiler.Proofs.Matching.Reads
import RuleCompiler.Proofs.Term.Rigid

/-! # Instances of rigid terms

What a rigid term reads as has the head of the term, and its children are what the children of the term
read as. So bindings that are kept in a term already do not change what it reads as. -/

namespace RuleCompiler

open Build (Always)
open Matching (Names Reads)

namespace Term
variable {t u c s : Term}

/-- Whether the term is a lookup or a choice. -/
def isLookup (t : Term) : Bool := (Lookup.ofCall? t t).isSome

/-- Whether an equation states a lookup does not depend on the value of the call. -/
theorem isSome_ofCall? (t u : Term) : (Lookup.ofCall? t u).isSome = t.isLookup := by
  unfold isLookup Lookup.ofCall?
  split
  · split_ifs <;> rfl
  · split_ifs <;> rfl
  · rfl

def isRigidNode (t : Term) : Bool :=
  !t.node.isChoice && !t.isLookup && (t.isGround || t.node.isRigid)

/-- Terms without rewrites, disjunctions, don't-care variables and lookups all of whose nodes with
variables are rigid. -/
def IsRigid (t : Term) : Prop := t.everyNode isRigidNode

instance (t : Term) : Decidable t.IsRigid := inferInstanceAs (Decidable (_ = true))

/-! ### Nodes with the same head -/

theorem sort_of_head (h : t.node.head = u.node.head) (ht : t.node.isChoice = false) : t.sort = u.sort := by
  have hkind := Node.Alike.of_head h
  rw [sort_eq, sort_eq]
  generalize t.node = m, u.node = n at hkind ht
  cases hkind with
  | rewrite => cases ht
  | _ => rfl

theorem isChoice_of_head (h : t.node.head = u.node.head) : t.node.isChoice = u.node.isChoice := by
  have hkind := Node.Alike.of_head h
  generalize t.node = m, u.node = n at hkind
  cases hkind <;> rfl

theorem isVar_of_head (h : t.node.head = u.node.head) : t.isVar = u.isVar := by
  have hkind := Node.Alike.of_head h
  unfold isVar
  generalize t.node = m, u.node = n at hkind
  cases hkind <;> rfl

theorem isItem_of_head (h : t.node.head = u.node.head) : t.isItem = u.isItem :=
  isItem_of_alike (Node.Alike.of_head h)

theorem isLookup_of_head (h : t.node.head = u.node.head) : t.isLookup = u.isLookup := by
  have hkind := Node.Alike.of_head h
  unfold isLookup Lookup.ofCall?
  generalize t.node = m, u.node = n at hkind
  cases hkind with
  | app h =>
    rcases h with _ | ⟨_, _ | ⟨_, _ | ⟨_, _⟩⟩⟩
    · rfl
    · dsimp only
      split_ifs <;> rfl
    · dsimp only
      split_ifs <;> rfl
    · rfl
  | _ => rfl

/-- A term of a sort below one that is not `K` is an item. -/
theorem isItem_of_subsort {k : SortName} (hk : k ≠ .k) (h : t.sort.subsortOf k) : t.isItem := by
  have ht : t.sort ≠ .k := by
    intro ht
    rw [ht] at h
    simp only [SortName.subsortOf, bne_self_eq_false, Bool.and_false, Bool.or_false, Bool.or_eq_true,
      beq_iff_eq] at h
    exact hk (h.elim Eq.symm id)
  rw [sort_eq] at ht
  unfold isItem
  cases hn : t.node <;> simp_all

theorem isItem_of_var {v : Var} (hn : t.node = .var v) (h : t.isItem) : v.sort ≠ .k := by
  simpa [isItem, hn] using h

theorem beq_of_head (h : t.node.head = u.node.head) (hc : Equal t.children u.children) : t == u :=
  beq_of_alike (Node.alike_of_head h hc)

theorem Steady.of_beq (h : u == t) : Steady t u :=
  ⟨fun _ => h, fun ht => (isItem_of_alike (alike_of_beq h)).trans ht⟩

theorem Steady.trans {v : Term} (h : Steady t u) (h' : Steady u v) : Steady t v :=
  ⟨fun ht => BEq.trans (h'.ground (isGround_congr (h.ground ht) ▸ ht)) (h.ground ht),
    fun ht => h'.item (h.item ht)⟩

end Term

/-- Whatever may take the place of the children of a rigid node makes a rigid node. -/
theorem Node.isRigid_of_alike {m n : Node Term} (h : Node.Alike Term.Steady m n) (hm : m.isRigid) :
    n.isRigid := by
  cases h with
  | seq h =>
    simp only [isRigid, Bool.and_eq_true, List.all_eq_true, bne_iff_ne] at hm ⊢
    refine ⟨⟨hm.1.1, h.length_eq ▸ hm.1.2⟩, fun c hc => ?_⟩
    obtain ⟨d, hd, hdc⟩ := PairedLists.exists_mem h.flip hc
    exact hdc.item (hm.2 d hd)
  | list _ hb hr =>
    simp only [isRigid, Bool.and_eq_true, List.isEmpty_iff] at hm ⊢
    obtain ⟨⟨hop, rfl⟩, rfl⟩ := hm
    cases hb
    cases hr
    exact ⟨⟨hop, rfl⟩, rfl⟩
  | @map _ es es' _ _ he hb =>
    simp only [isRigid, Bool.and_eq_true, decide_eq_true_eq, List.all_eq_true,
      List.isEmpty_iff] at hm ⊢
    obtain ⟨⟨hsorted, hground⟩, rfl⟩ := hm
    cases hb
    have hkeys : List.Forall₂ (fun e e' : Term × Term => e'.1 == e.1) es es' :=
      PairedLists.imp_mem he fun e hm _ _ h => h.1.ground (hground e hm)
    refine ⟨⟨?_, fun e' hm => ?_⟩, rfl⟩
    · have hcodes : (es.map (·.1.code)).Pairwise fun a b => Term.cmpCode a b = .lt :=
        List.pairwise_map.mpr hsorted
      rw [PairedLists.map_eq (hkeys.imp fun _ _ h => (Term.beq_iff.mp h).symm)] at hcodes
      exact List.pairwise_map.mp hcodes
    · obtain ⟨e, he, hbeq⟩ := PairedLists.exists_mem hkeys.flip hm
      exact (Term.isGround_congr hbeq).trans (hground e he)
  | @cells cs cs' _ h =>
    simp only [isRigid, Bool.and_eq_true, decide_eq_true_eq] at hm ⊢
    refine ⟨?_, hm.2⟩
    have hlabels : (cs.map (·.label)).Pairwise fun a b => compare a b = .lt :=
      List.pairwise_map.mpr hm.1
    rw [PairedLists.map_eq (h.imp fun _ _ h => h.1)] at hlabels
    exact List.pairwise_map.mp hlabels
  | _ => exact hm

namespace Term.IsRigid
variable {t u c s : Term}

theorem node (h : t.IsRigid) : t.node.isChoice = false ∧ t.isLookup = false ∧
    (t.isGround = false → t.node.isRigid) := by
  have hnode := (everyNode_iff.mp h).1
  simp only [isRigidNode, Bool.and_eq_true, Bool.not_eq_true', Bool.or_eq_true] at hnode
  refine ⟨hnode.1.1, hnode.1.2, fun hground => hnode.2.resolve_left ?_⟩
  rw [hground]
  exact Bool.false_ne_true

theorem child (h : t.IsRigid) (hc : c ∈ t.children) : c.IsRigid := (everyNode_iff.mp h).2.1 c hc

theorem frames_eq (h : t.IsRigid) : t.frames = [] := by
  cases hground : t.isGround with
  | true => exact (isGround_iff.mp hground).2.2
  | false =>
    have hnode := h.node.2.2 hground
    rw [frames]
    cases hn : t.node <;> simp_all [Node.isRigid, Node.frames]

/-- A node over rigid children that may take the place of those of a rigid node. -/
theorem of_head (h : t.IsRigid) (ht : t.isGround = false) (hhead : t.node.head = u.node.head)
    (hsteady : List.Forall₂ Steady t.children u.children) (hrigid : ∀ c ∈ u.children, c.IsRigid) :
    u.IsRigid := by
  obtain ⟨hchoice, hlookup, hnode⟩ := h.node
  have hframes : u.frames = t.frames := by
    have hkind := Node.Alike.of_head hhead
    unfold frames
    generalize t.node = m, u.node = n at hkind
    cases hkind <;> rfl
  refine everyNode_iff.mpr ⟨?_, hrigid, ?_⟩
  · rw [isRigidNode, ← isChoice_of_head hhead, ← isLookup_of_head hhead, hchoice, hlookup,
      Node.isRigid_of_alike (Node.alike_of_head hhead hsteady) (hnode ht), Bool.or_true]
    rfl
  · rw [hframes, h.frames_eq]
    exact List.forall_mem_nil _

end Term.IsRigid

namespace Matching
variable {θ : Substitution} {t u s : Term}

/-! ### What rigid terms read as -/

/-- The term is made like `t`, of what the children of `t` read as. -/
structure Mirrors (θ : Substitution) (t s : Term) : Prop where
  head : t.node.head = s.node.head
  children : List.Forall₂ (Reads θ) t.children s.children

theorem mirrors_of_beq (ht : t.isGround) (h : t == s) : Mirrors θ t s where
  head := (Term.code_eq_iff.mp (Term.beq_iff.mp h)).1
  children := PairedLists.imp_mem (Term.children_congr h) fun _ hc _ _ h =>
    .ground (Term.isGround_child ht hc) h

/-- What a rigid term reads as may take its place, and it is made like the term unless that is a
variable. -/
theorem Reads.mirrors_and_steady (h : Reads θ t s) (ht : t.IsRigid) :
    (t.isVar = false → Mirrors θ t s) ∧ Term.Steady t s := by
  induction t using Term.induction generalizing s with
  | h t ih =>
    cases h with
    | ground hground h => exact ⟨fun _ => mirrors_of_beq hground h, .of_beq (BEq.symm h)⟩
    | @var _ _ v hn h =>
      refine ⟨fun hvar => ?_, fun hground => (Term.not_isVar_of_isGround hground hn).elim, fun hitem => ?_⟩
      · rw [Term.isVar, hn] at hvar
        cases hvar
      · obtain ⟨_, -, -, hsort⟩ := h
        exact Term.isItem_of_subsort (Term.isItem_of_var hn hitem) hsort
    | @node _ _ cs fs hground hvar _ hc hf h =>
      have hframes := ht.frames_eq
      rw [hframes] at hf
      cases hf
      have hsteady : List.Forall₂ Term.Steady t.children cs :=
        PairedLists.imp_mem hc fun c hm _ _ h => (ih c hm h (ht.child hm)).2
      obtain ⟨u, hu, hus⟩ := (h cs [] (.refl cs) (.refl [])).exists_canReturn
      have hover := (Term.always_rebuild hsteady (ht.node.2.2 hground)).returns u hu
      have hhead : t.node.head = s.node.head :=
        hover.head.symm.trans (Term.code_eq_iff.mp (Term.beq_iff.mp hus)).1
      refine ⟨fun _ => ⟨hhead, ?_⟩, fun hg => ?_, fun hitem => ?_⟩
      · have hequal := Term.children_congr hus
        rw [hover.children] at hequal
        exact PairedLists.comp (fun _ _ _ h h' => h.congr h') hc hequal
      · rw [hground] at hg
        cases hg
      · exact (Term.isItem_of_head hhead).symm.trans hitem

theorem Reads.mirrors (h : Reads θ t s) (ht : t.IsRigid) (hvar : t.isVar = false) : Mirrors θ t s :=
  (h.mirrors_and_steady ht).1 hvar

theorem Reads.steady (h : Reads θ t s) (ht : t.IsRigid) : Term.Steady t s := (h.mirrors_and_steady ht).2

theorem Reads.names {v : Var} (h : Reads θ t s) (hn : t.node = .var v) : Names θ v s := by
  cases h with
  | ground hg => exact (Term.not_isVar_of_isGround hg hn).elim
  | var hn' h =>
    rw [hn] at hn'
    cases hn'
    exact h
  | node _ hvar =>
    rw [Term.isVar, hn] at hvar
    cases hvar

theorem Mirrors.steady (h : Mirrors θ t s) (ht : t.IsRigid) :
    List.Forall₂ Term.Steady t.children s.children :=
  PairedLists.imp_mem h.children fun _ hc _ _ h => h.steady (ht.child hc)

theorem Mirrors.reads (h : Mirrors θ t s) (ht : t.IsRigid) (hvar : t.isVar = false) : Reads θ t s := by
  cases hground : t.isGround with
  | true =>
    refine .ground hground (Term.beq_of_head h.head ?_)
    exact PairedLists.imp_mem h.children fun _ hc _ _ h =>
      h.beq_of_isGround (Term.isGround_child hground hc)
  | false =>
    have hframes : List.Forall₂ (Names θ) t.frames [] := by
      rw [ht.frames_eq]
      exact .nil
    refine .node hground hvar ht.node.1 h.children hframes fun cs' fs' hcs hfs => ?_
    cases hfs
    have hsteady : List.Forall₂ Term.Steady t.children cs' := by
      refine PairedLists.comp (fun _ _ _ h h' => ?_) (h.steady ht) hcs.symm
      exact Term.Steady.trans h (.of_beq (BEq.symm h'))
    refine (Term.always_rebuild hsteady (ht.node.2.2 hground)).mono fun u hu => ?_
    exact Term.beq_of_head (hu.head.trans h.head) (hu.children ▸ hcs)

/-! ### Instances -/

/-- Where variables are replaced, a rigid term stays what it is, or it is made like it was of what its children
become. -/
theorem always_replaceDown_induction {visit : Term → Build (Option Term)} {P : Term → Term → Prop}
    (hother : ∀ u, u.isVar = false → visit u = pure none) (hsteady : ∀ {t u}, P t u → Term.Steady t u)
    (hself : ∀ {t}, t.IsRigid → P t t)
    (hvar : ∀ {t v}, t.IsRigid → t.node = .var v → Always (visit t) fun o => P t (o.getD t))
    (hnode : ∀ {t u}, t.IsRigid → t.isGround = false → t.isVar = false → u.node.head = t.node.head →
      List.Forall₂ P t.children u.children → P t u) (ht : t.IsRigid) :
    Always (t.replaceDown visit) (P t) := by
  induction t using Term.induction with
  | h t ih =>
    cases hground : t.isGround with
    | true =>
      rw [Term.replaceDown_of_isGround hother hground]
      exact .pure (hself ht)
    | false =>
      cases htv : t.isVar with
      | true =>
        obtain ⟨v, hn⟩ := Term.exists_var htv
        rw [Term.replaceDown, Term.fold_eq, ← Term.replaceDown]
        refine (hvar ht hn).bind fun o ho => ?_
        cases o with
        | some u => exact .pure ho
        | none =>
          dsimp only
          rw [Term.update_eq_self (by rw [Term.frames, hn]; rfl) fun c hc => by
            rw [Term.children, hn] at hc
            cases hc]
          exact .pure ho
      | false =>
        rw [Term.replaceDown_eq hother htv]
        refine Term.always_update ht.frames_eq (fun c hc => ih c hc (ht.child hc)) (hself ht)
          fun cs hcs => ?_
        refine (Term.always_rebuild (hcs.imp fun _ _ h => hsteady h) (ht.node.2.2 hground)).mono
          fun u hu v hv => hnode ht hground htv (hv ▸ hu.head) ?_
        have hchildren : v.children = cs := by
          rw [Term.children, hv]
          exact hu.children
        rwa [hchildren]

/-- The instance of a rigid term is the term itself, or the value of the variable that it is, or made
like the term of instances of its children. -/
theorem always_substitute_induction {value : Var → Option Term} {P : Term → Term → Prop}
    (hsteady : ∀ {t u}, P t u → Term.Steady t u) (hself : ∀ {t}, t.IsRigid → P t t)
    (hvalue : ∀ {t v u}, t.node = .var v → value v = some u → P t u)
    (hnode : ∀ {t u}, t.IsRigid → t.isGround = false → t.isVar = false → u.node.head = t.node.head →
      List.Forall₂ P t.children u.children → P t u) (ht : t.IsRigid) :
    Always (t.substitute value) (P t) := by
  refine always_replaceDown_induction (fun u hu => by rw [Term.asVar?_eq_none hu]; rfl) hsteady hself
    (fun {t v} ht hn => .pure ?_) hnode ht
  rw [Term.asVar?_of_var hn, Option.bind_some]
  cases hv : value v with
  | none => exact hself ht
  | some u => exact hvalue hn hv

theorem steady_of_var {v : Var} (hn : t.node = .var v) (hsort : u.sort.subsortOf v.sort) :
    Term.Steady t u :=
  ⟨fun hground => (Term.not_isVar_of_isGround hground hn).elim,
    fun hitem => Term.isItem_of_subsort (Term.isItem_of_var hn hitem) hsort⟩

theorem steady_of_head (hground : t.isGround = false) (h : u.node.head = t.node.head) :
    Term.Steady t u := by
  refine ⟨fun hg => ?_, fun hitem => (Term.isItem_of_head h).trans hitem⟩
  rw [hground] at hg
  cases hg

/-- Under bindings of the right sorts a rigid term reads as its instance, once that is ground. -/
theorem always_reads (hθ : ∀ v u, θ.get? v = some u → u.sort.subsortOf v.sort) (ht : t.IsRigid) :
    Always (θ.apply t) fun u => u.isGround → Reads θ t u := by
  let P (t u : Term) : Prop := Term.Steady t u ∧ (u.isGround → Reads θ t u)
  have hinstance : Always (θ.apply t) (P t) := by
    refine always_substitute_induction (P := P) And.left (fun {t} _ => ?_) (fun {t v u} hn hv => ?_)
      (fun {t u} ht hground hvar hhead hc => ?_) ht
    · exact ⟨.refl t, fun hground => .ground hground (BEq.refl t)⟩
    · exact ⟨steady_of_var hn (hθ v u hv), fun _ => .var hn ⟨u, hv, BEq.refl u, hθ v u hv⟩⟩
    · refine ⟨steady_of_head hground hhead, fun hu => Mirrors.reads ⟨hhead.symm, ?_⟩ ht hvar⟩
      exact PairedLists.imp_mem hc fun _ _ _ hd h => h.2 (Term.isGround_child hu hd)
  exact hinstance.mono fun _ h => h.2

/-! ### Bindings put into rigid terms -/

/-- The second term may stand for the first: it reads as whatever the first reads as. -/
structure Refines (θ : Substitution) (t u : Term) : Prop where
  rigid : u.IsRigid
  steady : Term.Steady t u
  sort : u.sort.subsortOf t.sort
  reads : ∀ {s : Term}, Reads θ t s → Reads θ u s

theorem Refines.refl (ht : t.IsRigid) : Refines θ t t :=
  ⟨ht, .refl t, SortName.subsortOf_refl t.sort, id⟩

/-- The value of the variable is rigid, of its sort, and reads as whatever the variable names. -/
structure Sound (θ : Substitution) (v : Var) (u : Term) : Prop where
  rigid : u.IsRigid
  sort : u.sort.subsortOf v.sort
  reads : ∀ {s : Term}, Names θ v s → Reads θ u s

theorem Sound.refines {v : Var} (h : Sound θ v u) (hn : t.node = .var v) : Refines θ t u where
  rigid := h.rigid
  steady := steady_of_var hn h.sort
  sort := by
    rw [Term.sort_eq t, hn]
    exact h.sort
  reads := fun hreads => h.reads (hreads.names hn)

/-- A node over what may stand for the children may stand for the node. -/
theorem refines_of_head (ht : t.IsRigid) (hground : t.isGround = false) (hvar : t.isVar = false)
    (hhead : u.node.head = t.node.head) (hc : List.Forall₂ (Refines θ) t.children u.children) :
    Refines θ t u := by
  have hrigid : u.IsRigid := by
    refine ht.of_head hground hhead.symm (hc.imp fun _ _ h => h.steady) fun c hm => ?_
    obtain ⟨_, -, h⟩ := PairedLists.exists_mem hc.flip hm
    exact h.rigid
  refine ⟨hrigid, steady_of_head hground hhead, ?_, fun h => ?_⟩
  · rw [← Term.sort_of_head hhead.symm ht.node.1]
    exact SortName.subsortOf_refl _
  · have hmirrors := h.mirrors ht hvar
    refine Mirrors.reads ⟨hhead.trans hmirrors.head, ?_⟩ hrigid ((Term.isVar_of_head hhead).trans hvar)
    refine PairedLists.comp (fun _ _ _ h h' => ?_) hc.flip hmirrors.children
    exact Refines.reads h h'

/-- Where the values are sound the instance of a rigid term always exists and may stand for it. -/
theorem always_refines {value : Var → Option Term} (hvalue : ∀ v u, value v = some u → Sound θ v u)
    (ht : t.IsRigid) : Always (t.substitute value) (Refines θ t) :=
  always_substitute_induction Refines.steady Refines.refl
    (fun hn hv => (hvalue _ _ hv).refines hn) refines_of_head ht

end Matching

end RuleCompiler
