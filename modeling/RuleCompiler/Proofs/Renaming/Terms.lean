import RuleCompiler.Proofs.Renaming.Nodes
import RuleCompiler.Proofs.Rounds.Numbered
import RuleCompiler.Proofs.Sharing.Unshare

/-! # Terms renamed

A walk renames the variables of a term in builder normal form. Where nothing has another name the nodes
stay the same, and the others are made again, a list with a lone item as what its item has become. -/

namespace RuleCompiler

open Build (Gives)

/-- The variable under the name that it is given, if it is given one. -/
def Var.renamed (name : Var → Option Var) (v : Var) : Var := (name v).getD v

/-- Entries of two lists with something between each pair. -/
theorem PairedLists.exists_between {α β γ : Type} {T : α → γ → β → Prop} {as : List α} {bs : List β}
    (h : List.Forall₂ (fun a b => ∃ c, T a c b) as bs) :
    ∃ es : List (γ × β), es.map (·.2) = bs ∧ List.Forall₂ (fun a e => T a e.1 e.2) as es := by
  induction h with
  | nil => exact ⟨[], rfl, .nil⟩
  | @cons a b as bs h _ ih =>
    obtain ⟨c, hc⟩ := h
    obtain ⟨es, rfl, hes⟩ := ih
    exact ⟨(c, b) :: es, rfl, .cons hc hes⟩

namespace Term

variable {ρ : Var → Var} {name : Var → Option Var} {t u d : Term} {us : List Term} {N n k : Nat}

/-! ### One node -/

/-- The node that takes the place of a variable with a new name. -/
def visitNamed (name : Var → Option Var) (t : Term) : Build (Option Term) := (t.asVar?.bind name).mapM var

theorem rename_step (name : Var → Option Var) (t : Term) : t.rename name = (do
    match ← t.visitNamed name with
    | some t' => return t'
    | none => t.update (t.children.map (rename name)) fun v => return (← v.visitNamed name).getD v) :=
  replaceDown_step _ t

theorem gives_visitNamed {v : Var} (ht : t.node = .var v) (n : Nat) :
    Gives n (fun k o => (name v = none ∧ o = none) ∨ ∃ u, o = some u ∧ Fresh n k u ∧ u.isEditable = false ∧
      u.node = .var (v.renamed name)) (t.visitNamed name) := by
  rw [visitNamed, asVar?_of_var ht, Option.bind_some]
  cases hname : name v with
  | none => exact .pure (.inl ⟨rfl, rfl⟩)
  | some w =>
    have hvar : Gives n (fun k x => Fresh n k x ∧ x.isEditable = false ∧ x.node = .var w) (var w) :=
      gives_new (m := .var w) rfl n
    refine hvar.bind fun k x _ hx => .pure (.inr ⟨x, rfl, ?_⟩)
    rw [Var.renamed, hname]
    exact hx

/-- Each frame gets its name. It is the same node as before only if it has none. -/
theorem gives_frames_renamed (name : Var → Option Var) (t : Term) (n : Nat) :
    Gives n (fun _ es => List.Forall₂ (fun (v : Var) (e : Term × Term) =>
        e.2.node = .var (v.renamed name) ∧ (e.1.same e.2 → name v = none)) t.frames es)
      (t.frames.mapM fun v => do
        let node ← liftM (var v)
        return (node, ← (do return (← node.visitNamed name).getD node : Build Term))) := by
  refine (Gives.mapM (S := Eq) (R := fun _ (e : Term × Term) (v : Var) => e.2.node = .var (v.renamed name) ∧
    (e.1.same e.2 → name v = none)) (fun _ h => h) (List.forall₂_same.mpr fun _ _ => rfl) ?_).mono
    fun _ es _ h => h.flip
  rintro v - _ rfl k -
  refine (gives_new (m := .var v) rfl k).bind fun m u hm hu => ?_
  obtain ⟨hu, -, hun⟩ := hu
  refine Gives.bind ((gives_visitNamed hun m).bind fun k o _ ho => .pure (p := fun _ x =>
    x.node = .var (v.renamed name) ∧ (u.same x → name v = none)) ?_) fun k x _ hx => .pure hx
  rcases ho with ⟨hnone, rfl⟩ | ⟨x, rfl, hx, -, hxn⟩
  · refine ⟨?_, fun _ => hnone⟩
    rw [Option.getD_none, Var.renamed, hnone]
    exact hun
  · refine ⟨hxn, fun hsame => ?_⟩
    -- the node with the new name has a later number
    rw [Option.getD_some, same, hu.isCanonical, if_neg Bool.false_ne_true, Bool.and_eq_true, beq_iff_eq] at hsame
    have hlt := hu.lt
    have hle := hx.le
    omega

/-- What a walk passes on of a term that it renames. -/
abbrev PassedOn (ρ : Var → Var) (n k : Nat) (t u : Term) : Prop := ∃ d, Result n k t d u ∧ Renamed ρ t d

/-- Where the same nodes are passed on, they are the renamed ones. -/
theorem renamed_of_allSame {ts us : List Term} (hnumbered : ∀ t ∈ ts, t.IsNumbered n)
    (h : List.Forall₂ (PassedOn ρ n k) ts us) (hsame : allSame ts us) : List.Forall₂ (Renamed ρ) ts ts := by
  induction h with
  | nil => exact .nil
  | @cons t u ts us h _ ih =>
    obtain ⟨d, hresult, hd⟩ := h
    obtain ⟨ht, hts⟩ := List.forall_mem_cons.mp hnumbered
    rw [allSame, List.zip_cons_cons, List.all_cons, Bool.and_eq_true] at hsame
    obtain ⟨rfl, -⟩ := hresult.eq_of_same (forall_mem_nodes.mp ht).1 hsame.1
    exact .cons hd (ih hts hsame.2)

theorem PassedOn.mono {m k' : Nat} (h : PassedOn ρ m k t u) (hm : n ≤ m) (hk : k ≤ k') : PassedOn ρ n k' t u := by
  obtain ⟨d, hresult, hd⟩ := h
  exact ⟨d, hresult.mono hm hk, hd⟩

section Node
variable (hsorts : ∀ v : Var, (v.renamed name).sort = v.sort) (hρ : Set.InjOn (Var.renamed name) {v | v ∈ t.vars})
  (ht : t.everyNode isSettled) (hties : t.hasUntiedKeys) (hedit : t.touchesEditable = false)
  (hvar : ∀ v, t.node = .var v → name v = none)
include ht hedit

/-- A node is kept under the names that it has. -/
theorem passedOn_kept (hown : ∀ v ∈ t.node.ownVars, v.renamed name = v)
    (hchildren : List.Forall₂ (Renamed (Var.renamed name)) t.children t.children) :
    PassedOn (Var.renamed name) n k t t := by
  refine ⟨t, .kept, ?_, ht, hedit⟩
  refine renames_iff.mpr ⟨t.node, ?_, .refl _⟩
  rw [Node.mapVars_congr (σ := id) hown, Node.mapVars_id]
  exact Node.alike_of_head rfl (hchildren.imp fun _ _ h => h.renames)

include hsorts

/-- A list with a lone item is passed on as what its item has become. -/
theorem passedOn_lone (hlone : t.isLone) (hus : List.Forall₂ (PassedOn (Var.renamed name) n k) t.children us) :
    ∃ u, us = [u] ∧ t.rebuild us [] = pure u ∧
      (allSame t.children us = false → PassedOn (Var.renamed name) n k t u) := by
  have hnode := (everyNode_iff.mp ht).1
  obtain ⟨ops, x, htn, hop⟩ := node_of_isLone hlone
  have hchildren : t.children = [x] := by rw [Term.children, htn]; rfl
  rw [hchildren] at hus
  cases hus with
  | @cons _ u _ us hu hus =>
  cases hus
  obtain ⟨d, hresult, hd⟩ := hu
  obtain ⟨hitem, -⟩ := isItem_of_lone hnode htn hop
  rw [← hd.renames.isItem_eq hsorts] at hitem
  rcases hresult.of_lone_item hnode htn hop with ⟨rfl, rfl⟩ | ⟨rfl, hfresh⟩
  · exact ⟨_, rfl, rebuild_lone htn hop hitem, fun hmoved => by simp [hchildren, allSame, same_self] at hmoved⟩
  · refine ⟨_, rfl, rebuild_lone htn hop hitem, fun _ => ⟨⟨t.mark, .list ops [d] [] []⟩, ?_, ?_⟩⟩
    · exact .lone htn hop rfl hfresh
    · have hrenames : t.Renames (Var.renamed name) ⟨t.mark, .list ops [d] [] []⟩ := by
        refine renames_iff.mpr ⟨.list ops [d] [] [], ?_, .refl _⟩
        rw [htn]
        exact .list (.cons hd.renames .nil) .nil .nil
      have hbelow : ∀ c ∈ [d], c.everyNode isSettled ∧ c.touchesEditable = false := by
        simpa using ⟨hd.settled, hd.untouched⟩
      refine .of_children hrenames (hrenames.isSettled hsorts (by rw [htn]; rfl) (fun c hc => ?_) hnode)
        (untouched_iff.mp hedit).1 hbelow
      exact (untouched_iff.mp (hbelow c hc).2).1

include hρ hties hvar

/-- After its children, a node is kept or made again. -/
theorem gives_rebuild_passedOn {es : List (Term × Term)} (hn : n ≤ k) (hnumbered : ∀ c ∈ t.children, c.IsNumbered n)
    (hus : List.Forall₂ (PassedOn (Var.renamed name) n k) t.children us)
    (hes : List.Forall₂ (fun (v : Var) (e : Term × Term) =>
      e.2.node = .var (v.renamed name) ∧ (e.1.same e.2 → name v = none)) t.frames es) :
    Gives k (fun k' u => PassedOn (Var.renamed name) n k' t u)
      (if allSame t.children us && es.all fun e => e.1.same e.2 then pure t else t.rebuild us (es.map (·.2))) := by
  have hkept {v : Var} (hv : name v = none) : v.renamed name = v := by rw [Var.renamed, hv]; rfl
  have hnode := (everyNode_iff.mp ht).1
  cases hall : allSame t.children us && es.all fun e => e.1.same e.2 with
  | true =>
    rw [Bool.and_eq_true, List.all_eq_true] at hall
    refine .pure (passedOn_kept ht hedit (fun v hv => hkept ?_) (renamed_of_allSame hnumbered hus hall.1))
    cases hisVar : t.isVar with
    | true =>
      obtain ⟨w, hw⟩ := exists_var hisVar
      rw [hw, Node.ownVars, List.mem_singleton] at hv
      exact hv ▸ hvar w hw
    | false =>
      rw [ownVars_of_not_isVar hisVar] at hv
      obtain ⟨e, he, hev⟩ := PairedLists.exists_mem hes hv
      exact hev.2 (hall.2 e he)
  | false =>
  cases hlone : t.isLone with
  | true =>
    obtain ⟨u, rfl, hrebuild, hpassed⟩ := passedOn_lone hsorts ht hedit hlone hus
    obtain ⟨ops, x, htn, -⟩ := node_of_isLone hlone
    have hframes : t.frames = [] := by rw [frames, htn]; rfl
    rw [hframes] at hes
    cases hes
    rw [List.all_nil, Bool.and_true] at hall
    simp only [List.map_nil, hrebuild]
    exact .pure (hpassed hall)
  | false =>
  obtain ⟨rs, rfl, hrs⟩ := PairedLists.exists_between hus
  have hds : List.Forall₂ (Renamed (Var.renamed name)) t.children (rs.map (·.1)) :=
    List.forall₂_map_right_iff.mpr (hrs.imp fun _ _ h => h.2)
  have hpassed : List.Forall₂ (Passed t) (rs.map (·.1)) (rs.map (·.2)) := by
    rw [List.forall₂_map_left_iff, List.forall₂_map_right_iff, List.forall₂_same]
    intro r hr
    obtain ⟨c, hc, hresult, -⟩ := PairedLists.exists_mem hrs.flip hr
    exact passed_of_result hnode hc hresult
  have hne : t.children ≠ [] ∨ t.frames ≠ [] := by
    by_contra hnone
    rw [not_or, not_not, not_not] at hnone
    rw [hnone.1] at hall
    rw [hnone.2] at hes
    cases hes
    cases hall
  have hisVar : t.isVar = false := by
    by_contra hisVar
    obtain ⟨w, hw⟩ := exists_var (by simpa using hisVar)
    rw [children, frames, hw] at hne
    simp [Node.children, Node.frames] at hne
  have hframes : List.Forall₂ (fun (v : Var) f => f.node = .var (v.renamed name)) t.frames (es.map (·.2)) :=
    List.forall₂_map_right_iff.mpr (hes.imp fun _ _ h => h.1)
  refine (gives_rebuild_renamed hsorts hρ ht hties hlone hisVar hne hds hpassed hframes k).mono fun k' u _ hu => ?_
  exact ⟨u, .made (hu.1.mono hn (Nat.le_refl k')), hu.2⟩

end Node

/-- A walk that gives variables other names, different ones, renames a term in builder normal form. -/
theorem gives_rename (hsorts : ∀ v : Var, (v.renamed name).sort = v.sort) (t : Term) : t.everyNode isSettled →
    t.everyNode hasUntiedKeys → t.touchesEditable = false → t.IsNumbered N →
      Set.InjOn (Var.renamed name) {v | v ∈ t.vars} → ∀ n, N ≤ n →
        Gives n (fun k u => PassedOn (Var.renamed name) n k t u) (t.rename name) := by
  induction t using Term.induction with
  | h t ih =>
    intro ht hties hedit hnumbered hρ n hn
    obtain ⟨-, hbelow, -⟩ := everyNode_iff.mp ht
    obtain ⟨htop, htiesBelow, -⟩ := everyNode_iff.mp hties
    obtain ⟨hself, heditBelow⟩ := untouched_iff.mp hedit
    obtain ⟨-, hnumberedBelow⟩ := forall_mem_nodes.mp hnumbered
    rw [rename_step]
    have hupdate (hvar : ∀ v, t.node = .var v → name v = none) (n : Nat) (hn : N ≤ n) :
        Gives n (fun k u => PassedOn (Var.renamed name) n k t u)
          (t.update (t.children.map (rename name)) fun v => return (← v.visitNamed name).getD v) := by
      have hchildren : Gives n (fun k us => List.Forall₂ (PassedOn (Var.renamed name) n k) t.children us)
          (t.children.mapM (rename name)) := by
        refine (Gives.mapM (S := Eq) (R := fun k u c => PassedOn (Var.renamed name) n k c u)
          (fun hk h => h.mono (Nat.le_refl n) hk) (List.forall₂_same.mpr fun _ _ => rfl) ?_).mono fun _ _ _ h => h.flip
        rintro c hc _ rfl k hk
        exact (ih c hc (hbelow c hc) (htiesBelow c hc) (heditBelow c hc) (hnumberedBelow c hc)
          (hρ.mono (vars_child hc)) k (Nat.le_trans hn hk)).mono fun k' u _ hu => hu.mono hk (Nat.le_refl k')
      unfold update
      rw [List.mapM_map]
      refine Gives.bind (p := fun k _ => k = n) ⟨n, n, rfl, Nat.le_refl n, rfl⟩ ?_
      rintro _ start - rfl
      refine hchildren.bind fun k us hk hus => ?_
      refine (gives_frames_renamed name t k).bind fun m es hm hes => ?_
      have hlast := gives_rebuild_passedOn hsorts hρ ht htop hedit hvar (Nat.le_trans hk hm)
        (fun c hc => IsNumbered.mono hn (hnumberedBelow c hc)) (hus.imp fun _ _ h => h.mono (Nat.le_refl _) hm) hes
      simp only [hself, Bool.false_eq_true, if_false]
      split
      · rename_i hall
        rwa [if_pos hall] at hlast
      · rename_i hall
        rw [if_neg hall] at hlast
        exact hlast.bind fun k' u _ hu => .pure hu
    cases hisVar : t.isVar with
    | true =>
      obtain ⟨v, hv⟩ := exists_var hisVar
      refine (gives_visitNamed hv n).bind fun k o hk ho => ?_
      rcases ho with ⟨hnone, rfl⟩ | ⟨u, rfl, hfresh, hu, hun⟩
      · refine (hupdate (fun w hw => ?_) k (Nat.le_trans hn hk)).mono fun _ u _ hu => hu.mono hk (Nat.le_refl _)
        cases hv.symm.trans hw
        exact hnone
      · refine .pure ⟨u, .made hfresh, .of_children (renames_iff.mpr ⟨u.node, ?_, .refl _⟩) ?_ hu ?_⟩
        · rw [hv, hun]
          exact .var
        · rw [isSettled, children, hun]
          rfl
        · rw [children, hun]
          exact List.forall_mem_nil _
    | false =>
      rw [visitNamed, asVar?_eq_none hisVar]
      refine hupdate (fun v hv => ?_) n hn
      rw [isVar, hv] at hisVar
      cases hisVar

/-! ### Terms of rules -/

/-- Whether the term is in builder normal form, nothing in it is editable, and keys of its maps and elements
of its sets have no ties. -/
def isRenamable (t : Term) : Bool := t.isBuilderNormal && t.everyNode hasUntiedKeys && !t.touchesEditable

theorem isRenamable_iff : t.isRenamable ↔
    t.isLone = false ∧ t.everyNode isSettled ∧ t.everyNode hasUntiedKeys ∧ t.touchesEditable = false := by
  simp only [isRenamable, isBuilderNormal, Bool.and_eq_true, Bool.not_eq_true', and_assoc]

theorem gives_rename_renamable (hsorts : ∀ v : Var, (v.renamed name).sort = v.sort) (ht : t.isRenamable)
    (hnumbered : t.IsNumbered N) (hρ : Set.InjOn (Var.renamed name) {v | v ∈ t.vars}) (hn : N ≤ n) :
    Gives n (fun _ u => Renamed (Var.renamed name) t u) (t.rename name) := by
  obtain ⟨hlone, hsettled, hties, hedit⟩ := isRenamable_iff.mp ht
  refine (gives_rename hsorts t hsettled hties hedit hnumbered hρ n hn).mono fun k u _ hu => ?_
  obtain ⟨d, hresult, hd⟩ := hu
  cases hresult with
  | kept => exact hd
  | made => exact hd
  | lone htn hop =>
    rw [isLone, htn] at hlone
    cases hop.symm.trans hlone

/-- Renaming can go on if frames are told apart by name and id as before. -/
theorem Renamed.isRenamable (h : Renamed ρ t u) (hρ : ∀ v ∈ t.vars, ∀ w ∈ t.vars,
    (ρ v).name = (ρ w).name → (ρ v).id = (ρ w).id → (v.name = w.name ∧ v.id = w.id)) (hsorts : ∀ v, (ρ v).sort = v.sort)
    (ht : t.isRenamable) : u.isRenamable := by
  obtain ⟨hlone, -, hties, -⟩ := isRenamable_iff.mp ht
  exact isRenamable_iff.mpr ⟨h.renames.isLone_eq.trans hlone, h.settled, h.renames.hasUntiedKeys hρ hsorts hties,
    h.untouched⟩

end Term

end RuleCompiler
