import Mathlib.Data.List.Perm.Basic
import RuleCompiler.Proofs.Matching.Bounds
import RuleCompiler.Proofs.Term.Walk

/-! # Terms under other variable names

`t.Renames ρ u` says that `u` is `t` with every variable, frames included, renamed by `ρ`, where
unordered collections may list their parts in another order: renaming changes what they are sorted
by. Renamings compose, and a renaming that tells the variables of a term apart can be undone. -/

namespace RuleCompiler

variable {α : Type}

namespace Node

/-- The node with its own variables renamed, those that stand for the rest among them. -/
def mapVars (ρ : Var → Var) : Node α → Node α
  | var v => var (ρ v)
  | seq items frame => seq items (frame.map ρ)
  | cells cs frames => cells cs (frames.map ρ)
  | n => n

/-- The variables that `mapVars` renames. -/
def ownVars : Node α → List Var
  | var v => [v]
  | n => n.frames

/-- Nodes that differ at most in the order in which an unordered collection lists its parts. -/
inductive Reorders : Node α → Node α → Prop where
  | refl (n : Node α) : Reorders n n
  | map {ops : CollectionOps} {es es' : List (α × α)} {base base' : List α} (he : es.Perm es')
      (hb : base.Perm base') : Reorders (.map ops es base) (.map ops es' base')
  | set {ops : CollectionOps} {es es' base base' : List α} (he : es.Perm es') (hb : base.Perm base') :
      Reorders (.set ops es base) (.set ops es' base')
  | cells {cs cs' : List (CellOf α)} {frames frames' : List Var} (hc : cs.Perm cs')
      (hf : frames.Perm frames') : Reorders (.cells cs frames) (.cells cs' frames')

variable {R S T : α → α → Prop} {ρ σ : Var → Var} {k l m n : Node α}

/-! ### Own variables -/

theorem mapVars_congr (h : ∀ v ∈ n.ownVars, ρ v = σ v) : n.mapVars ρ = n.mapVars σ := by
  cases n with
  | var v => exact congrArg var (h v List.mem_cons_self)
  | seq items frame =>
    cases frame with
    | none => rfl
    | some v => exact congrArg (seq items ∘ some) (h v List.mem_cons_self)
  | cells cs frames => exact congrArg (cells cs) (List.map_congr_left h)
  | _ => rfl

@[simp] theorem mapVars_mapVars (n : Node α) : (n.mapVars ρ).mapVars σ = n.mapVars (σ ∘ ρ) := by
  cases n <;> simp [mapVars]

@[simp] theorem mapVars_id (n : Node α) : n.mapVars id = n := by
  cases n <;> simp [mapVars]

@[simp] theorem children_mapVars (n : Node α) : (n.mapVars ρ).children = n.children := by
  cases n <;> rfl

@[simp] theorem ownVars_mapVars (n : Node α) : (n.mapVars ρ).ownVars = n.ownVars.map ρ := by
  cases n with
  | seq items frame => cases frame <;> rfl
  | _ => rfl

theorem Alike.mapVars (h : Alike R m n) : Alike R (m.mapVars ρ) (n.mapVars ρ) := by
  cases h with
  | app h => exact .app h
  | freezer hf h => exact .freezer hf h
  | token => exact .token
  | seq h => exact .seq h
  | list hl hb hr => exact .list hl hb hr
  | map he hb => exact .map he hb
  | set he hb => exact .set he hb
  | cells h => exact .cells h
  | var => exact .var
  | hole => exact .hole
  | labelValue => exact .labelValue
  | rewrite hl hr => exact .rewrite hl hr
  | disjunction h => exact .disjunction h
  | rightSides h => exact .rightSides h

theorem Alike.ownVars_eq (h : Alike R m n) : n.ownVars = m.ownVars := by cases h <;> rfl

theorem Alike.flip (h : Alike R m n) : Alike (flip R) n m := by
  cases h with
  | app h => exact .app h.flip
  | freezer hf h => exact .freezer hf h.flip
  | token => exact .token
  | seq h => exact .seq h.flip
  | list hl hb hr => exact .list hl.flip hb.flip hr.flip
  | map he hb => exact .map he.flip hb.flip
  | set he hb => exact .set he.flip hb.flip
  | cells h => exact .cells (h.flip.imp fun _ _ h => ⟨h.1.symm, h.2.1.symm, h.2.2⟩)
  | var => exact .var
  | hole => exact .hole
  | labelValue => exact .labelValue
  | rewrite hl hr => exact .rewrite hl hr
  | disjunction h => exact .disjunction (h.flip.imp fun _ _ h => ⟨h.1, h.2.symm⟩)
  | rightSides h =>
    refine .rightSides (h.flip.imp fun _ _ h => ?_)
    cases h with
    | none => exact .none
    | some h => exact .some h

theorem Alike.head_eq (h : Alike R m n) : m.head = n.head := by
  cases h with
  | app h => simp [head, h.length_eq]
  | freezer _ h => simp [head, h.length_eq]
  | seq h => simp [head, h.length_eq]
  | list hl hb hr => simp [head, hl.length_eq, hb.length_eq, hr.length_eq]
  | map he hb => simp [head, he.length_eq, hb.length_eq]
  | set he hb => simp [head, he.length_eq, hb.length_eq]
  | cells h =>
    have hsymbols := PairedLists.map_eq (f := cellSymbol)
      (h.imp fun _ _ h => by rw [cellSymbol, h.1, h.2.1, cellSymbol])
    simp [head, h.length_eq, hsymbols]
  | disjunction h =>
    have hrules := PairedLists.map_eq (f := fun b : α × RuleSet => ((b.2.bits, "") : Symbol))
      (h.imp fun _ _ h => by rw [h.2])
    simp [head, h.length_eq, hrules]
  | rightSides h =>
    have hpresent := PairedLists.map_eq (f := fun o : Option α => ((if o.isSome then 1 else 0, "") : Symbol))
      (h.imp fun _ _ h => by cases h <;> rfl)
    simp [head, h.length_eq, hpresent]
  | _ => rfl

theorem Alike.imp_mem (h : Alike R m n) (hRS : ∀ a ∈ m.children, ∀ b ∈ n.children, R a b → S a b) : Alike S m n :=
  alike_of_head h.head_eq (PairedLists.imp_mem h.children hRS)

/-- What is related to children of the first node is related through those of the second. -/
theorem Alike.comp (h : Alike R m n) (h' : Alike S n k)
    (hT : ∀ a ∈ m.children, ∀ b c, R a b → S b c → T a c) : Alike T m k := by
  refine alike_of_head (h.head_eq.trans h'.head_eq) ?_
  have hchildren := PairedLists.imp_mem h.children (S := fun a b => a ∈ m.children ∧ R a b) fun a ha b _ h => ⟨ha, h⟩
  exact PairedLists.comp (fun a b c h h' => hT a h.1 b c h.2 h') hchildren h'.children

/-! ### Other orders -/

namespace Reorders

theorem symm (h : m.Reorders n) : n.Reorders m := by
  cases h with
  | refl => exact .refl _
  | map he hb => exact .map he.symm hb.symm
  | set he hb => exact .set he.symm hb.symm
  | cells hc hf => exact .cells hc.symm hf.symm

theorem trans (h : m.Reorders n) (h' : n.Reorders k) : m.Reorders k := by
  cases h with
  | refl => exact h'
  | map he hb =>
    cases h' with
    | refl => exact .map he hb
    | map he' hb' => exact .map (he.trans he') (hb.trans hb')
  | set he hb =>
    cases h' with
    | refl => exact .set he hb
    | set he' hb' => exact .set (he.trans he') (hb.trans hb')
  | cells hc hf =>
    cases h' with
    | refl => exact .cells hc hf
    | cells hc' hf' => exact .cells (hc.trans hc') (hf.trans hf')

theorem mapVars (h : m.Reorders n) : (m.mapVars ρ).Reorders (n.mapVars ρ) := by
  cases h with
  | refl => exact .refl _
  | map he hb => exact .map he hb
  | set he hb => exact .set he hb
  | cells hc hf => exact .cells hc (hf.map ρ)

theorem perm_children (h : m.Reorders n) : m.children.Perm n.children := by
  cases h with
  | refl => exact .refl _
  | map he hb => exact (he.flatMap_right _).append hb
  | set he hb => exact he.append hb
  | cells hc hf => exact hc.map _

theorem perm_ownVars (h : m.Reorders n) : m.ownVars.Perm n.ownVars := by
  cases h with
  | cells hc hf => exact hf
  | _ => exact .refl _

/-- A node beside another one, brought into the order that the other one is brought into. -/
theorem exists_alike (h : m.Reorders n) (h' : Alike R n k) : ∃ l, Alike R m l ∧ l.Reorders k := by
  cases h with
  | refl => exact ⟨k, h', .refl k⟩
  | map he hb =>
    cases h' with
    | map he' hb' =>
      obtain ⟨es, he', he⟩ := List.perm_comp_forall₂ he he'
      obtain ⟨base, hb', hb⟩ := List.perm_comp_forall₂ hb hb'
      exact ⟨_, .map he' hb', .map he hb⟩
  | set he hb =>
    cases h' with
    | set he' hb' =>
      obtain ⟨es, he', he⟩ := List.perm_comp_forall₂ he he'
      obtain ⟨base, hb', hb⟩ := List.perm_comp_forall₂ hb hb'
      exact ⟨_, .set he' hb', .set he hb⟩
  | cells hc hf =>
    cases h' with
    | cells hc' =>
      obtain ⟨cs, hc', hc⟩ := List.perm_comp_forall₂ hc hc'
      exact ⟨_, .cells hc', .cells hc hf⟩

end Reorders

end Node

open Node (Alike Reorders)

namespace Term

/-- The term `u` is `t` with each variable `v` named `ρ v`, up to the order in which unordered collections
list their parts: some node that says the same as that of `t`, over renamed children, lists them in the
order of `u`. -/
inductive Renames (ρ : Var → Var) : Term → Term → Prop where
  | node {t u : Term} {m : Node Term} (hhead : (t.node.mapVars ρ).head = m.head)
      (hc : List.Forall₂ (Renames ρ) t.children m.children) (ho : m.Reorders u.node) : Renames ρ t u

variable {ρ σ : Var → Var} {t u v : Term}

theorem renames_iff : t.Renames ρ u ↔
    ∃ m, Alike (Renames ρ) (t.node.mapVars ρ) m ∧ m.Reorders u.node := by
  constructor
  · rintro ⟨hhead, hc, ho⟩
    exact ⟨_, Node.alike_of_head hhead (by rwa [Node.children_mapVars]), ho⟩
  · rintro ⟨m, h, ho⟩
    have hc := h.children
    rw [Node.children_mapVars] at hc
    exact .node h.head_eq hc ho

/-! ### Variables -/

theorem ownVars_of_not_isVar (h : t.isVar = false) : t.node.ownVars = t.frames := by
  rw [isVar] at h
  rw [frames]
  cases hn : t.node with
  | var w => simp [hn, Node.isVar] at h
  | _ => rfl

/-- A variable of the term is one of the node's own or one of a child's. -/
theorem mem_vars_iff {w : Var} : w ∈ t.vars ↔ w ∈ t.node.ownVars ∨ ∃ c ∈ t.children, w ∈ c.vars := by
  cases hvar : t.isVar with
  | true =>
    obtain ⟨x, hn⟩ := exists_var hvar
    rw [vars_of_var hn, children, hn]
    simp [Node.ownVars, Node.children]
  | false => rw [vars_of_not_isVar hvar, ownVars_of_not_isVar hvar, List.mem_append, List.mem_flatMap, or_comm]

theorem ownVars_subset (t : Term) : t.node.ownVars ⊆ t.vars := by
  intro v hv
  rw [mem_vars_iff]
  exact .inl hv

/-- Only the names of the variables of the term matter. -/
theorem Renames.congr_vars (h : t.Renames ρ u) (hρ : ∀ v ∈ t.vars, ρ v = σ v) : t.Renames σ u := by
  induction t using Term.induction generalizing u with
  | h t ih =>
    obtain ⟨hhead, hc, ho⟩ := h
    rw [Node.mapVars_congr fun v hv => hρ v (ownVars_subset t hv)] at hhead
    exact .node hhead (PairedLists.imp_mem hc fun c hm d _ h => ih c hm h fun v hv => hρ v (vars_child hm hv)) ho

/-- The renamed term has the renamed variables. -/
theorem Renames.mem_vars_iff (h : t.Renames ρ u) {w : Var} : w ∈ u.vars ↔ ∃ v ∈ t.vars, ρ v = w := by
  induction t using Term.induction generalizing u with
  | h t ih =>
    obtain ⟨m, halike, ho⟩ := renames_iff.mp h
    have hown : w ∈ u.node.ownVars ↔ ∃ v ∈ t.node.ownVars, ρ v = w := by
      rw [← ho.perm_ownVars.mem_iff, halike.ownVars_eq, Node.ownVars_mapVars, List.mem_map]
    have hchildren := halike.children
    rw [Node.children_mapVars] at hchildren
    have hbelow : (∃ d ∈ u.children, w ∈ d.vars) ↔ ∃ c ∈ t.children, ∃ v ∈ c.vars, ρ v = w := by
      constructor
      · rintro ⟨d, hd, hw⟩
        obtain ⟨c, hc, hcd⟩ := PairedLists.exists_mem hchildren.flip (ho.perm_children.mem_iff.mpr hd)
        exact ⟨c, hc, (ih c hc hcd).mp hw⟩
      · rintro ⟨c, hc, hw⟩
        obtain ⟨d, hd, hcd⟩ := PairedLists.exists_mem hchildren hc
        exact ⟨d, ho.perm_children.mem_iff.mp hd, (ih c hc hcd).mpr hw⟩
    rw [Term.mem_vars_iff, hown, hbelow]
    constructor
    · rintro (⟨v, hv, rfl⟩ | ⟨c, hc, v, hv, rfl⟩)
      · exact ⟨v, ownVars_subset t hv, rfl⟩
      · exact ⟨v, vars_child hc hv, rfl⟩
    · rintro ⟨v, hv, rfl⟩
      rw [Term.mem_vars_iff] at hv
      rcases hv with hv | ⟨c, hc, hv⟩
      · exact .inl ⟨v, hv, rfl⟩
      · exact .inr ⟨c, hc, v, hv, rfl⟩

/-! ### Renamings one after the other -/

theorem Renames.congr (h : t.Renames ρ u) (hv : u == v) : t.Renames ρ v := by
  induction t using Term.induction generalizing u v with
  | h t ih =>
    rw [renames_iff] at h ⊢
    obtain ⟨m, halike, ho⟩ := h
    obtain ⟨l, hml, hlv⟩ := ho.exists_alike (alike_of_beq hv)
    refine ⟨l, halike.comp hml fun c hc _ _ hcd hde => ?_, hlv⟩
    exact ih c (by rwa [Node.children_mapVars] at hc) hcd hde

theorem Renames.comp (h : t.Renames ρ u) (h' : u.Renames σ v) : t.Renames (σ ∘ ρ) v := by
  induction t using Term.induction generalizing u v with
  | h t ih =>
    rw [renames_iff] at h h' ⊢
    obtain ⟨m, halike, ho⟩ := h
    obtain ⟨n, halike', ho'⟩ := h'
    obtain ⟨l, hml, hln⟩ := ho.mapVars.exists_alike halike'
    refine ⟨l, ?_, hln.trans ho'⟩
    rw [← Node.mapVars_mapVars]
    refine halike.mapVars.comp hml fun c hc _ _ hcd hde => ih c ?_ hcd hde
    rwa [Node.children_mapVars, Node.children_mapVars] at hc

/-- A renaming that tells the variables of the term apart is undone by another renaming. -/
theorem Renames.symm (h : t.Renames ρ u) (hσ : ∀ v ∈ t.vars, σ (ρ v) = v) : u.Renames σ t := by
  induction t using Term.induction generalizing u with
  | h t ih =>
    rw [renames_iff] at h ⊢
    obtain ⟨m, halike, ho⟩ := h
    obtain ⟨l, hul, hlt⟩ := ho.symm.exists_alike halike.flip
    have hback : ((t.node.mapVars ρ).mapVars σ) = t.node := by
      have hid : ∀ v ∈ t.node.ownVars, (σ ∘ ρ) v = id v := fun v hv => hσ v (ownVars_subset t hv)
      rw [Node.mapVars_mapVars, Node.mapVars_congr hid, Node.mapVars_id]
    refine ⟨l.mapVars σ, hul.mapVars.imp_mem ?_, hback ▸ hlt.mapVars⟩
    intro d _ c hc hcd
    rw [Node.children_mapVars] at hc
    have hc : c ∈ t.children := by
      have := hlt.perm_children.mem_iff.mp hc
      rwa [Node.children_mapVars] at this
    exact ih c hc hcd fun v hv => hσ v (vars_child hc hv)

/-- No node gets lost. -/
theorem Renames.size_eq (h : t.Renames ρ u) : u.size = t.size := by
  induction t using Term.induction generalizing u with
  | h t ih =>
    obtain ⟨-, hc, ho⟩ := h
    have hsizes : t.children.map size = List.map size _ :=
      PairedLists.map_eq (PairedLists.imp_mem hc fun c hm _ _ h => (ih c hm h).symm)
    rw [size_eq_sizes, size_eq_sizes, children, ← sizes_perm ho.perm_children, sizes, sizes, hsizes]

end Term

end RuleCompiler
