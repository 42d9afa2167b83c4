import RuleCompiler.Proofs.Expansion.Walk
import RuleCompiler.Proofs.Matching.Determinacy

/-! # Redexes

Where an expansion rule applies: its left side matches, and its conditions are plainly true under the match.
For the rules that are considered here none of this can clash, and it depends on what the term says alone. -/

namespace RuleCompiler

open Build (Always From Gives Concur)
open MonadAttach (CanReturn)
open Matching (Fits Bound)
open Counting (Runs)

/-! ### Frames that a match binds -/

/-- The frames of a group of cells. -/
def Node.groupFrames : Node Term → List Var
  | .cells _ frames => frames
  | _ => []

namespace Term
variable {t u : Term}

/-- The frames of all groups of cells. -/
def groupFrames (t : Term) : List Var := t.nodes.flatMap (·.node.groupFrames)

/-- The frames of the groups of cells that every match goes through. -/
def matchedFrames : Term → List Var :=
  fold fun t below => match t.node with
    | .app .. | .seq .. | .cells .. => below.flatten ++ t.node.groupFrames
    | _ => []

theorem matchedFrames_eq (t : Term) : t.matchedFrames = match t.node with
    | .app .. | .seq .. | .cells .. => t.children.flatMap matchedFrames ++ t.node.groupFrames
    | _ => [] := by
  rw [matchedFrames, fold_eq, ← matchedFrames, List.flatMap]

theorem groupFrames_subset (t : Term) : t.node.groupFrames ⊆ t.frames := by
  intro v hv
  rw [frames]
  unfold Node.groupFrames at hv
  split at hv
  · rename_i hn
    rwa [hn]
  · cases hv

theorem matchedFrames_of_isGround (h : t.isGround) : t.matchedFrames = [] := by
  induction t using Term.induction with
  | h t ih =>
    have hframes : t.node.groupFrames = [] :=
      List.eq_nil_of_subset_nil ((isGround_iff.mp h).2.2 ▸ t.groupFrames_subset)
    have hchildren : t.children.flatMap matchedFrames = [] :=
      List.flatMap_eq_nil_iff.mpr fun c hc => ih c hc (isGround_child h hc)
    rw [matchedFrames_eq, hframes, hchildren]
    split <;> rfl

theorem isJoinable_congr (h : t == u) : t.isJoinable = u.isJoinable := by
  have h := alike_of_beq h
  unfold isJoinable
  generalize t.node = m, u.node = n at h
  cases h <;> rfl

end Term

theorem CellParts.isJoinable_build (p : CellParts) : Returns (fun t => t.isJoinable) p.build := by
  unfold build
  split
  · exact (Term.always_new _).returns.mono fun t ht => by rw [Term.isJoinable, ht]
  · exact (Term.always_new _).returns.mono fun t ht => by rw [Term.isJoinable, ht]

namespace Matching

/-- The frames that a match goes through are bound to what a group of cells takes in. -/
def BindsFrames (σ : Substitution) (p : Term) : Prop :=
  ∀ v ∈ p.matchedFrames, v.isDontCare ∨ ∃ w, σ.get? v = some w ∧ w.isJoinable

theorem stable_bindsFrames : Stable fun σ p _ => BindsFrames σ p := fun _ _ _ _ hτ h v hv =>
  (h v hv).imp_right fun hw => hw.imp fun w hw => ⟨hτ v w hw.1, hw.2⟩

theorem Bound.bindsFrame {σ : Substitution} {v : Var} {s : Term} (h : Bound σ v s) (hs : s.isJoinable) :
    v.isDontCare ∨ ∃ w, σ.get? v = some w ∧ w.isJoinable := by
  refine h.2.imp_right fun hw => ?_
  obtain ⟨w, hw, heq⟩ := hw
  exact ⟨w, hw, by rwa [Term.isJoinable_congr heq]⟩

theorem CellsFit.bindsFrames {σ : Substitution} {sFrames pFrames : List Var} {cs : List Cell}
    {unused : List (Nat × Cell)} (h : CellsFit (fun p _ => BindsFrames σ p) σ sFrames pFrames cs unused) :
    (∀ c ∈ cs, BindsFrames σ c.content) ∧
      ∀ v ∈ pFrames, v.isDontCare ∨ ∃ w, σ.get? v = some w ∧ w.isJoinable := by
  induction h with
  | @nil unused r hr h =>
    refine ⟨List.forall_mem_nil _, ?_⟩
    cases h with
    | part hb => exact List.forall_mem_singleton.mpr (hb.bindsFrame (CellParts.isJoinable_build _ r hr))
    | _ => exact List.forall_mem_nil _
  | cell _ _ hc _ ih => exact ⟨List.forall_mem_cons.mpr ⟨hc, ih.1⟩, ih.2⟩

theorem SequenceFits.bindsFrames {σ : Substitution} {pFrame sFrame : Option Var} {ps ss : List Term}
    (h : SequenceFits (fun p _ => BindsFrames σ p) σ pFrame sFrame ps ss) : ∀ p ∈ ps, BindsFrames σ p := by
  have hsegment {p : Term} {v : Var} (hv : segment? p = some v) : BindsFrames σ p := by
    intro w hw
    rw [Term.matchedFrames_eq, segment?_eq hv] at hw
    cases hw
  induction h with
  | closed => exact List.forall_mem_nil _
  | frame => exact List.forall_mem_nil _
  | lastSegment hv => exact List.forall_mem_singleton.mpr (hsegment hv)
  | segment hv _ _ _ ih => exact List.forall_mem_cons.mpr ⟨hsegment hv, ih⟩
  | item _ hp _ ih => exact List.forall_mem_cons.mpr ⟨hp, ih⟩

theorem Fits.bindsFrames {σ : Substitution} {p s : Term} (h : Fits (fun σ p _ => BindsFrames σ p) σ p s) :
    BindsFrames σ p := by
  have hparts (hchildren : ∀ c ∈ p.children, BindsFrames σ c)
      (hframes : ∀ v ∈ p.node.groupFrames, v.isDontCare ∨ ∃ w, σ.get? v = some w ∧ w.isJoinable) :
      BindsFrames σ p := by
    intro v hv
    rw [Term.matchedFrames_eq] at hv
    split at hv <;> first | cases hv | skip
    all_goals
      rcases List.mem_append.mp hv with hv | hv
      · obtain ⟨c, hc, hv⟩ := List.mem_flatMap.mp hv
        exact hchildren c hc v hv
      · exact hframes v hv
  cases h with
  | same hp _ =>
    intro v hv
    rw [Term.matchedFrames_of_isGround hp] at hv
    cases hv
  | app hp _ h =>
    refine hparts (fun c hc => ?_) (by rw [hp]; exact List.forall_mem_nil _)
    rw [Term.children, hp] at hc
    obtain ⟨s', -, hs⟩ := PairedLists.exists_mem h hc
    exact hs
  | freezer hp _ hf h =>
    refine hparts (fun c hc => ?_) (by rw [hp]; exact List.forall_mem_nil _)
    rw [Term.children, hp] at hc
    rcases List.mem_cons.mp hc with rfl | hc
    · exact hf
    · obtain ⟨s', -, hs⟩ := PairedLists.exists_mem h hc
      exact hs
  | sequence hp h =>
    refine hparts (fun c hc => ?_) (by rw [hp]; exact List.forall_mem_nil _)
    rw [Term.children, hp] at hc
    exact h.bindsFrames c hc
  | cells hp _ h =>
    refine hparts (fun c hc => ?_) (by rw [hp]; exact h.bindsFrames.2)
    rw [Term.children, hp] at hc
    obtain ⟨cell, hcell, rfl⟩ := List.mem_map.mp hc
    exact h.bindsFrames.1 cell hcell
  | _ hp =>
    intro v hv
    rw [Term.matchedFrames_eq, hp] at hv
    cases hv

theorem matchAll_bindsFrames (p s : Term) :
    Returns (fun σs => ∀ σ ∈ σs, BindsFrames σ p) (matchAll p s) :=
  matchAll_induction (R := fun σ p _ => BindsFrames σ p) stable_bindsFrames (fun _ _ _ h => h.bindsFrames) p s

end Matching

/-! ### Instances -/

namespace Build
variable {α β : Type} {n : Nat} {p : Nat → α → Prop} {x : Build α}

theorem Always.of_gives {Q : α → Prop} (h : ∀ n, Gives n (fun _ => Q) x) : Always x Q := by
  intro n
  obtain ⟨a, k, hrun, -, hQ⟩ := h n
  exact ⟨a, k, hrun, hQ⟩

/-- What a computation gives is what it may give. -/
theorem Gives.canReturn (hx : Gives n p x) : Gives n (fun k a => p k a ∧ CanReturn x a) x := by
  obtain ⟨a, k, hrun, hk, hp⟩ := hx
  exact ⟨a, k, hrun, hk, hp, ⟨n, k, hrun⟩⟩

/-- A search answers where one of its steps does, with what the step ensures. -/
theorem Gives.findSomeM? {S : α → Prop} {q : β → Prop} {f : α → Build (Option β)} :
    ∀ {l : List α} {n : Nat}, (∀ a ∈ l, ∀ k, n ≤ k → Gives k (fun _ o => (o.isSome ↔ S a) ∧ ∀ b ∈ o, q b) (f a)) →
      Gives n (fun _ o => (o.isSome ↔ ∃ a ∈ l, S a) ∧ ∀ b ∈ o, q b) (l.findSomeM? f)
  | [], n, _ => by
    rw [List.findSomeM?_nil]
    exact .pure ⟨by simp, nofun⟩
  | a :: l, n, h => by
    rw [List.findSomeM?_cons]
    refine (h a List.mem_cons_self n (Nat.le_refl n)).bind fun k o hk ho => ?_
    cases o with
    | some b => exact .pure ⟨iff_of_true rfl ⟨a, List.mem_cons_self, ho.1.mp rfl⟩, ho.2⟩
    | none =>
      have hrest : Gives k _ (l.findSomeM? f) :=
        findSomeM? fun c hc j hj => h c (List.mem_cons_of_mem a hc) j (Nat.le_trans hk hj)
      refine hrest.mono fun _ o' _ ho' => ⟨?_, ho'.2⟩
      have hnone : ¬S a := fun hS => by cases ho.1.mpr hS
      rw [ho'.1, List.exists_mem_cons_iff]
      exact ⟨.inr, fun h => h.resolve_left hnone⟩

end Build

namespace Term
variable {σ τ : Substitution} {t u : Term} {N n : Nat} {P : Term → Prop}

/-- What the bindings put for frames of the term are groups of cells and variables. -/
def Admits (t : Term) (σ : Substitution) : Prop :=
  ∀ v ∈ t.groupFrames, ∀ w, σ.get? v = some w → w.isJoinable

/-- Where frames become what a group of cells takes in, bindings can be put into a term. -/
theorem Spreads.apply (hP : Spreads N P) (hn : N ≤ n) (ht : P t) (hσ : ∀ v w, σ.get? v = some w → P w)
    (hadmits : t.Admits σ) : Gives n (fun _ => P) (σ.apply t) := by
  let visit (t : Term) : Build (Option Term) := return t.asVar?.bind σ.get?
  let count (_ : Term) : Nat := 0
  have hwalk : Runs n (Term.replaceDown visit t) (count t) P := by
    refine hP.replaceDown (fun _ _ => rfl) (fun u k hk hu => ?_) ?_ hn ht
    · cases hbound : u.asVar?.bind σ.get? with
      | none => exact .inr ⟨by simp [count], rfl, .pure hbound⟩
      | some w =>
        obtain ⟨v, -, hw⟩ := Option.bind_eq_some_iff.mp hbound
        exact .inl ⟨rfl, .pure ⟨w, hbound, hσ v w hw⟩⟩
    · intro u hu parts vs hnode v hv x k hk hx _
      refine ⟨rfl, .pure fun w hw => ?_⟩
      rw [asVar?_of_var hx, Option.bind_some] at hw
      refine ⟨hσ v w hw, hadmits v (List.mem_flatMap.mpr ⟨u, hu, ?_⟩) w hw⟩
      rwa [hnode]
  exact hwalk.2

/-- Whether the condition is plainly true under the bindings. -/
def isTrueUnder (σ : Substitution) (t : Term) : Bool := ((t.asVar?.bind σ.get?).getD t).isTrue

theorem isTrue_congr (h : t == u) : t.isTrue = u.isTrue := by
  have h := alike_of_beq h
  unfold isTrue
  generalize t.node = m, u.node = n at h
  cases h <;> rfl

theorem isTrueUnder_congr (h : σ.Alike τ) (t : Term) : t.isTrueUnder σ = t.isTrueUnder τ := by
  unfold isTrueUnder
  cases t.asVar? with
  | none => rfl
  | some v =>
    have hv := h.get? v
    rw [Option.bind_some, Option.bind_some]
    generalize σ.get? v = o, τ.get? v = o' at hv
    cases hv with
    | none => rfl
    | some hw => exact isTrue_congr hw

/-- A node that is no variable, no token and no collection is not made a truth value by putting bindings into it. -/
theorem returns_apply_isTrue (hvar : t.isVar = false) (htoken : t.isToken = false)
    (hcollection : t.node.isCollection = false) : Returns (fun u => u.isTrue = false) (σ.apply t) := by
  have hself : t.isTrue = false := by
    unfold isToken at htoken
    unfold isTrue
    split
    · rename_i hn
      rw [hn] at htoken
      cases htoken
    · rfl
  rw [Substitution.apply, substitute_eq hvar]
  refine returns_update (S := fun _ _ => True) ?_ (fun _ _ => .trivial _) hself fun cs _ => ?_
  · rw [frames]
    cases hn : t.node <;> first | rfl | (rw [hn] at hcollection; cases hcollection)
  · have hnew (m : Node Term) (hm : ∀ v : Term, v.node = m → v.isTrue = false) :
        Returns (fun u : Term => ∀ v : Term, v.node = u.node → v.isTrue = false) (new m) :=
      (always_new m).returns.mono fun u hu v hv => hm v (hv.trans hu)
    have hkept : Returns (fun u : Term => ∀ v : Term, v.node = u.node → v.isTrue = false) (pure t : Build Term) :=
      .pure fun v hv => by rwa [isTrue, hv, ← isTrue]
    unfold rebuild
    cases hn : t.node with
    | app l args s =>
      cases l with
      | const l => exact hnew _ fun v hv => by rw [isTrue, hv]
      | freezer f =>
        cases cs with
        | nil => exact hkept
        | cons c cs => exact hnew _ fun v hv => by rw [isTrue, hv]
    | rewrite l r =>
      rcases cs with _ | ⟨l', _ | ⟨r', _ | _⟩⟩ <;> first | exact hkept | exact hnew _ fun v hv => by rw [isTrue, hv]
    | disjunction => exact hnew _ fun v hv => by rw [isTrue, hv]
    | rightSides => exact hnew _ fun v hv => by rw [isTrue, hv]
    | var => simp [isVar, hn, Node.isVar] at hvar
    | token => simp [isToken, hn] at htoken
    | hole => exact hkept
    | labelValue => exact hkept
    | _ => simp [hn, Node.isCollection] at hcollection

/-- Whether an instance of a condition is true can be told from the bindings. -/
theorem gives_apply_isTrue (hcollection : t.node.isCollection = false) (hadmits : t.Admits σ) :
    Gives n (fun _ u => u.isTrue = t.isTrueUnder σ) (σ.apply t) := by
  cases hn : t.node with
  | var v =>
    rw [Substitution.apply, substitute_of_var hn]
    refine .pure ?_
    rw [isTrueUnder, asVar?_of_var hn, Option.bind_some]
  | token s v =>
    have hground : t.isGround := by
      rw [isGround_iff, isVar, children, frames, hn]
      exact ⟨rfl, List.forall_mem_nil _, rfl⟩
    rw [Substitution.apply, substitute_of_isGround hground]
    refine .pure ?_
    rw [isTrueUnder, asVar?_eq_none (by rw [isVar, hn]; rfl)]
    rfl
  | _ =>
    have hvar : t.isVar = false := by rw [isVar, hn]; rfl
    have htoken : t.isToken = false := by rw [isToken, hn]
    have hnone : t.isTrueUnder σ = false := by
      rw [isTrueUnder, asVar?_eq_none hvar, isTrue]
      simp [hn]
    have happly : Gives n (fun _ _ => True) (σ.apply t) :=
      spreads_true.apply (Nat.zero_le n) trivial (fun _ _ _ => trivial) hadmits
    rw [hnone]
    refine (happly.canReturn).mono fun _ u _ hu => ?_
    exact returns_apply_isTrue hvar htoken hcollection u hu.2

end Term

/-! ### Rules that apply -/

/-- Whether the term is an application. -/
def Term.isApplication (t : Term) : Bool :=
  match t.node with
  | .app .. => true
  | _ => false

namespace Rule
variable {r : Rule} {t u : Term} {σ : Substitution} {σs : List Substitution}

/-- Whether the match of the left side binds all frames of groups of cells in the term. -/
def bindsFramesOf (r : Rule) (t : Term) : Bool :=
  t.groupFrames.all fun v => !v.isDontCare && r.left.matchedFrames.contains v

/-- Whether the left side is an application with ground keys and elements, no condition is a collection, and the
frames in the conditions and in the right side are frames of the left side. -/
def isPlain (r : Rule) : Bool :=
  r.left.isApplication && r.left.hasGroundKeys &&
    r.requires.all (fun c => !c.node.isCollection && r.bindsFramesOf c) && r.bindsFramesOf r.right

structure IsPlain (r : Rule) : Prop where
  left : r.left.isApplication
  keys : r.left.HasGroundKeys
  conditions : ∀ c ∈ r.requires, c.node.isCollection = false ∧ r.bindsFramesOf c
  right : r.bindsFramesOf r.right

theorem isPlain_iff : r.isPlain ↔ r.IsPlain := by
  simp only [isPlain, Bool.and_eq_true, List.all_eq_true, Bool.not_eq_true']
  exact ⟨fun h => ⟨h.1.1.1, h.1.1.2, h.1.2, h.2⟩, fun h => ⟨⟨⟨h.left, h.keys⟩, h.conditions⟩, h.right⟩⟩

/-- The left side matches the term, and every condition is plainly true under the match. -/
def AppliesTo (r : Rule) (t : Term) : Prop :=
  ∃ σs, CanReturn (matchAll r.left t) σs ∧
    ∃ σ ∈ σs, ∀ c ∈ r.requires, ∃ u, CanReturn (σ.apply c) u ∧ u.isTrue

theorem admits_of_match (hσs : CanReturn (matchAll r.left t) σs) (hσ : σ ∈ σs) (hu : r.bindsFramesOf u) :
    u.Admits σ := by
  intro v hv w hw
  have hframe := List.all_eq_true.mp hu v hv
  rw [Bool.and_eq_true, Bool.not_eq_true', List.contains_iff_mem] at hframe
  rcases Matching.matchAll_bindsFrames _ _ σs hσs σ hσ v hframe.2 with hdont | ⟨w', hw', hjoin⟩
  · rw [hframe.1] at hdont
    cases hdont
  · cases hw.symm.trans hw'
    exact hjoin

/-- Whether a rule applies can be told from any run of the match. -/
theorem appliesTo_iff (hr : r.IsPlain) (htu : t == u) (hσs : CanReturn (matchAll r.left u) σs) :
    r.AppliesTo t ↔ ∃ σ ∈ σs, r.requires.all (Term.isTrueUnder σ) := by
  have hcondition {t : Term} {τs : List Substitution} {τ : Substitution} (hτs : CanReturn (matchAll r.left t) τs)
      (hτ : τ ∈ τs) {c : Term} (hc : c ∈ r.requires) :
      (∃ u, CanReturn (τ.apply c) u ∧ u.isTrue) ↔ c.isTrueUnder τ := by
    obtain ⟨hcollection, hframes⟩ := hr.conditions c hc
    have happly : Always (τ.apply c) fun u => u.isTrue = c.isTrueUnder τ :=
      .of_gives fun n => Term.gives_apply_isTrue hcollection (admits_of_match hτs hτ hframes)
    refine ⟨fun h => ?_, fun h => ?_⟩
    · obtain ⟨u, hu, htrue⟩ := h
      rwa [← happly.returns u hu]
    · obtain ⟨u, hu, htrue⟩ := happly.exists_canReturn
      exact ⟨u, hu, htrue.trans h⟩
  have hagree := (Matching.concur_matchAll hr.keys htu).agree
  obtain ⟨n, n', hrun⟩ := hσs
  refine ⟨fun h => ?_, fun h => ?_⟩
  · obtain ⟨τs, hτs, τ, hτ, hall⟩ := h
    have hmatch := hτs
    obtain ⟨m, m', hrun'⟩ := hτs
    obtain ⟨σ, hσ, halike⟩ := PairedLists.exists_mem (hagree.of_eq hrun' hrun) hτ
    refine ⟨σ, hσ, List.all_eq_true.mpr fun c hc => ?_⟩
    rw [← Term.isTrueUnder_congr halike]
    exact (hcondition hmatch hτ hc).mp (hall c hc)
  · obtain ⟨σ, hσ, hall⟩ := h
    obtain ⟨τs, m', hrun', -⟩ := (Matching.concur_matchAll hr.keys htu).ends 0
    have hmatch : CanReturn (matchAll r.left t) τs := ⟨0, m', hrun'⟩
    obtain ⟨τ, hτ, halike⟩ := PairedLists.exists_mem (hagree.of_eq hrun' hrun).flip hσ
    refine ⟨τs, hmatch, τ, hτ, fun c hc => (hcondition hmatch hτ hc).mpr ?_⟩
    rw [Term.isTrueUnder_congr halike]
    exact List.all_eq_true.mp hall c hc

theorem appliesTo_congr (hr : r.IsPlain) (h : t == u) : r.AppliesTo t ↔ r.AppliesTo u := by
  obtain ⟨σs, k, hrun, -⟩ := (Matching.concur_matchAll hr.keys (BEq.refl u)).ends 0
  have hσs : CanReturn (matchAll r.left u) σs := ⟨0, k, hrun⟩
  rw [appliesTo_iff hr h hσs, appliesTo_iff hr (BEq.refl u) hσs]

/-- An application matches no variable. -/
theorem not_appliesTo_of_isVar (hr : r.IsPlain) (ht : t.isVar) : ¬r.AppliesTo t := by
  have hfits : ∀ σ p s, Fits (fun _ p s => p.isApplication → s.isVar = false) σ p s →
      p.isApplication → s.isVar = false := by
    intro σ p s h hp
    unfold Term.isApplication at hp
    split at hp
    · rename_i hn
      cases h with
      | same _ h =>
        rw [← Term.isVar_congr h, Term.isVar, hn]
        rfl
      | app _ hs => rw [Term.isVar, hs]; rfl
      | freezer _ hs => rw [Term.isVar, hs]; rfl
      | _ hp => cases hn.symm.trans hp
    · cases hp
  rintro ⟨σs, hσs, σ, hσ, -⟩
  have hnot := Matching.matchAll_induction (R := fun _ p s => p.isApplication → s.isVar = false)
    (fun _ _ _ _ _ h => h) hfits _ _ σs hσs σ hσ hr.left
  rw [ht] at hnot
  cases hnot

end Rule

namespace Expander
variable {e : Expander} {t u : Term} {N n : Nat} {P : Term → Prop}

/-- Every rule can be tried on every term. -/
def IsPlain (e : Expander) : Prop := ∀ r ∈ e.rules, r.isPlain

/-- Some rule applies to the term. -/
def IsRedex (e : Expander) (t : Term) : Prop := ∃ r ∈ e.rules, r.AppliesTo t

/-- No rule applies to any node or frame of the term. -/
def IsNormal (e : Expander) (t : Term) : Prop := ∀ u ∈ t.subterms, ¬e.IsRedex u

theorem IsPlain.rule (he : e.IsPlain) {r : Rule} (hr : r ∈ e.rules) : r.IsPlain := Rule.isPlain_iff.mp (he r hr)

theorem isRedex_congr (he : e.IsPlain) (h : t == u) : e.IsRedex t ↔ e.IsRedex u :=
  exists_congr fun _ => and_congr_right fun hr => Rule.appliesTo_congr (he.rule hr) h

theorem not_isRedex_of_isVar (he : e.IsPlain) (ht : t.isVar) : ¬e.IsRedex t := by
  rintro ⟨r, hr, h⟩
  exact Rule.not_appliesTo_of_isVar (he.rule hr) ht h

/-- A term is in normal form if it is no redex and its children are in normal form. -/
theorem isNormal_iff (he : e.IsPlain) : e.IsNormal t ↔ ¬e.IsRedex t ∧ ∀ c ∈ t.children, e.IsNormal c := by
  have hframes : ∀ u ∈ t.frameTerms, ¬e.IsRedex u := by
    intro u hu
    obtain ⟨v, -, rfl⟩ := List.mem_map.mp hu
    exact not_isRedex_of_isVar he rfl
  rw [IsNormal, Term.subterms_eq, List.forall_mem_cons, List.forall_mem_append, List.forall_mem_flatMap]
  exact and_congr_right fun _ => and_iff_left hframes

theorem IsNormal.congr (he : e.IsPlain) (h : t == u) (ht : e.IsNormal t) : e.IsNormal u := by
  induction t using Term.induction generalizing u with
  | h t ih =>
    obtain ⟨hredex, hchildren⟩ := (isNormal_iff he).mp ht
    refine (isNormal_iff he).mpr ⟨fun hu => hredex ((isRedex_congr he h).mpr hu), fun d hd => ?_⟩
    obtain ⟨c, hc, hcd⟩ := PairedLists.exists_mem (Term.children_congr h).flip hd
    exact ih c hc hcd (hchildren c hc)

theorem gives_isEnabled {r : Rule} {σ : Substitution}
    (hr : ∀ c ∈ r.requires, c.node.isCollection = false ∧ c.Admits σ) :
    Gives n (fun _ b => b = r.requires.all (Term.isTrueUnder σ)) (isEnabled r σ) := by
  unfold isEnabled
  generalize r.requires = cs at hr
  induction cs generalizing n with
  | nil => exact .pure rfl
  | cons c cs ih =>
    obtain ⟨hc, hcs⟩ := List.forall_mem_cons.mp hr
    rw [List.allM, List.all_cons, bind_assoc]
    refine (Term.gives_apply_isTrue hc.1 hc.2).bind fun k u hk hu => ?_
    rw [pure_bind, hu]
    cases c.isTrueUnder σ with
    | true => exact ih hcs
    | false => exact .pure rfl

/-- A node is expanded exactly where some rule applies. -/
theorem gives_expandNode? (he : e.IsPlain) (hP : Term.Spreads N P) (hright : ∀ r ∈ e.rules, P r.right)
    (hn : N ≤ n) (ht : P t) : Gives n (fun _ o => (o.isSome ↔ e.IsRedex t) ∧ ∀ u ∈ o, P u) (e.expandNode? t) := by
  refine Gives.findSomeM? fun r hr k hk => ?_
  have hplain := he.rule hr
  have hk := Nat.le_trans hn hk
  have hspread : Matching.PassesOn k (fun _ => P) fun _ => True :=
    .of_kept { hP.kept with
      newVar := fun h => hP.kept.newVar (Nat.le_trans hk h)
      new := fun h => hP.kept.new (Nat.le_trans hk h) } hP.child
  have hmatch : Gives k (fun _ σs => ∀ σ ∈ σs, ∀ v w, σ.get? v = some w → P w) (matchAll r.left t) :=
    (Gives.of_always (matchAll_passesOn hspread ht)
      (Matching.concur_matchAll hplain.keys (BEq.refl t)).ends).mono fun _ _ _ h σ hσ v w hw => (h.1 σ hσ v w hw).1
  refine hmatch.canReturn.bind fun k₁ σs hk₁ hσs => ?_
  rw [Rule.appliesTo_iff hplain (BEq.refl t) hσs.2]
  refine Gives.findSomeM? fun σ hσ k₂ hk₂ => ?_
  have hadmits {u : Term} (hu : r.bindsFramesOf u) : u.Admits σ := Rule.admits_of_match hσs.2 hσ hu
  refine (gives_isEnabled fun c hc => ⟨(hplain.conditions c hc).1, hadmits (hplain.conditions c hc).2⟩).bind
    fun k₃ b hk₃ hb => ?_
  rw [← hb]
  cases b with
  | false => exact .pure ⟨by simp, nofun⟩
  | true =>
    have hle : N ≤ k₃ := by omega
    refine (hP.apply hle (hright r hr) (hσs.1 σ hσ) (hadmits hplain.right)).bind fun k₄ u _ hu => .pure ?_
    exact ⟨by simp, fun v hv => Option.some.inj hv ▸ hu⟩

end Expander

end RuleCompiler
