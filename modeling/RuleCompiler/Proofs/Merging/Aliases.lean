import RuleCompiler.Automaton.Basic
import RuleCompiler.Proofs.Expansion.Rules
import RuleCompiler.Proofs.Renaming.Relation

/-! # Variables that stand for several

Merging goes from column to column, and each column has at most one term of a rule. So the variables that
it takes together are of different rules. A variable that stands for others was not shared before, and stands
for itself as well: it is no other rule's that would be renamed to something else later on. -/

namespace RuleCompiler

open Build (From)

/-- Each step of a loop that ends well gives something. -/
theorem PairedLists.of_mapM_eq_some {α β : Type} {f : α → Option β} {as : List α} {bs : List β}
    (h : as.mapM f = some bs) : List.Forall₂ (fun a b => f a = some b) as bs :=
  Returns.mapM (q := fun a b => f a = some b) (fun a _ => Returns.self (f a)) bs h

/-! ### Variables of left sides -/

namespace Term
variable {Q : Var → Prop} {t : Term}

theorem flatMap_vars_subset {ts : List Term} (h : ts ⊆ t.children) : ts.flatMap vars ⊆ t.vars := by
  intro v hv
  obtain ⟨c, hc, hv⟩ := List.mem_flatMap.mp hv
  exact vars_child (h hc) hv

/-- All variables of the term satisfy `Q`. -/
def IsOver (Q : Var → Prop) (t : Term) : Prop := ∀ v ∈ t.vars, Q v

theorem isOver_iff : t.IsOver Q ↔ (∀ v ∈ t.node.ownVars, Q v) ∧ ∀ c ∈ t.children, c.IsOver Q := by
  constructor
  · exact fun h => ⟨fun v hv => h v (ownVars_subset t hv), fun c hc v hv => h v (vars_child hc hv)⟩
  · rintro ⟨hown, hc⟩ v hv
    rcases mem_vars_iff.mp hv with hv | ⟨c, hm, hv⟩
    · exact hown v hv
    · exact hc c hm v hv

theorem IsOver.congr {u : Term} (h : t.IsOver Q) (hnode : u.node = t.node) : u.IsOver Q := by
  rw [isOver_iff] at h ⊢
  rwa [children, hnode]

theorem isOver_of_var {v : Var} (hn : t.node = .var v) (hv : Q v) : t.IsOver Q := by
  intro w hw
  rw [vars_of_var hn, List.mem_singleton] at hw
  exact hw ▸ hv

theorem mem_ownVars_of_frame {v : Var} (hv : v ∈ t.frames) : v ∈ t.node.ownVars := by
  rwa [ownVars_of_not_isVar]
  cases hvar : t.isVar with
  | false => rfl
  | true =>
    obtain ⟨w, hn⟩ := exists_var hvar
    rw [frames, hn] at hv
    cases hv

theorem returns_isOver_new {m : Node Term} (hvar : m.isVar = false) (hc : ∀ c ∈ m.children, c.IsOver Q)
    (hf : ∀ v ∈ m.frames, Q v) : Returns (IsOver Q) (new m) := by
  refine (returns_new m).mono fun t hn => ?_
  rw [isOver_iff, ownVars_of_not_isVar (by rwa [isVar, hn]), frames, children, hn]
  exact ⟨hf, hc⟩

theorem kept_isOver (Q : Var → Prop) (n : Nat) : Kept n (fun _ => IsOver Q) Q where
  mono _ h := h
  part h _ hc := (isOver_iff.mp h).2 _ hc
  frame h hv := (isOver_iff.mp h).1 _ (mem_ownVars_of_frame hv)
  var h hn := h _ (by rw [vars_of_var hn]; exact List.mem_singleton_self _)
  newVar _ hv := .of_returns ((returns_var _).mono fun _ hn => isOver_of_var hn hv) (grows_new _ _)
  new {_ m} _ hm hc hf := .of_returns (returns_isOver_new (by cases m <;> first | rfl | cases hm) hc hf) (grows_new _ _)

/-- What is made again of parts over `Q` is over `Q`. -/
theorem returns_isOver_rebuild {cs fs : List Term} (ht : t.IsOver Q) (hcs : ∀ c ∈ cs, c.IsOver Q)
    (hfs : ∀ f ∈ fs, f.IsOver Q) : Returns (IsOver Q) (t.rebuild cs fs) := by
  refine .of_from fun k => (leads_rebuild_node (kept_isOver Q k).keeps (Nat.le_refl k) hcs hfs (fun _ => ht)
    (fun l r _ hlr => ?_) fun m _ hvar hframes hc => ?_).from_next
  · subst hlr
    exact .of_new (.of_returns (returns_isOver_new rfl hcs (List.forall_mem_nil _)) (grows_new _ _))
  · refine .of_new (.of_returns (returns_isOver_new hvar hc ?_) (grows_new _ _))
    rw [hframes]
    exact List.forall_mem_nil _

theorem returns_isOver_update {f : Term → Build Term} (ht : t.IsOver Q)
    (hf : ∀ c ∈ t.children, Returns (IsOver Q) (f c)) : Returns (IsOver Q) (t.update (t.children.map f) pure) := by
  unfold update
  refine .bind' fun start => ?_
  rw [List.mapM_map]
  refine (Returns.mapM_all hf).bind fun cs hcs => ?_
  have hframes : Returns (fun fs : List (Term × Term) => ∀ f ∈ fs, f.2.IsOver Q) (t.frames.mapM fun v => do
      let node ← liftM (var v)
      return (node, ← (pure node : Build Term))) := by
    refine .mapM_all fun v hv => (Returns.lift (returns_var v)).bind fun u hn => ?_
    exact (Returns.pure (m := Build) (isOver_of_var hn ((isOver_iff.mp ht).1 v (mem_ownVars_of_frame hv)))).bind
      fun _ h => .pure h
  refine hframes.bind fun fs hfs => .ite (fun _ => .pure ht) fun _ => ?_
  have hrebuild : Returns (IsOver Q) (t.rebuild cs (fs.map (·.2))) :=
    returns_isOver_rebuild ht hcs (List.forall_mem_map.mpr hfs)
  refine (Returns.lift hrebuild).bind fun u hu => .pure ?_
  split
  · exact hu.congr (makeEditable_node start u)
  · exact hu

end Term

/-- A side of a term has no variables but those of the term. -/
theorem Side.returns_isOver_walk {Q : Var → Prop} (s : Side) (t : Term) (ht : t.IsOver Q) :
    Returns (Term.IsOver Q) (s.walk t) := by
  induction t using Term.induction with
  | h t ih =>
    have hchild {c : Term} (hc : c ∈ t.children) : c.IsOver Q := (Term.isOver_iff.mp ht).2 c hc
    cases hr : t.isRewrite with
    | true =>
      obtain ⟨l, r, hn⟩ := Term.exists_sides_of_isRewrite hr
      rw [walk_of_rewrite hn]
      exact ih _ (s.select_mem hn) (hchild (s.select_mem hn))
    | false =>
      rw [walk_of_not_rewrite hr]
      exact Term.returns_isOver_update ht fun c hc => ih c hc (hchild hc)

namespace Merge

/-! ### Parts of rules -/

variable {α β : Type} {owner : Var → Nat}

/-- At most one part of each rule: a variable of it, don't-care variables left out, is one of that rule. -/
structure FromRules (owner : Var → Nat) (rule : α → Nat) (vars : α → List Var) (xs : List α) : Prop where
  nodup : (xs.map rule).Nodup
  owned : ∀ x ∈ xs, ∀ v ∈ vars x, v.isDontCare = false → owner v = rule x

/-- No two of the variables are of one rule, don't-care variables left out. -/
def AreApart (owner : Var → Nat) (vs : List Var) : Prop :=
  ∀ v ∈ vs, v.isDontCare = false → ∀ w ∈ vs, w.isDontCare = false → owner v = owner w → v = w

namespace FromRules
variable {rule : α → Nat} {vars : α → List Var} {xs : List α} {rule' : β → Nat} {vars' : β → List Var} {ys : List β}

/-- Parts of some of the parts, at most one of each. -/
theorem of_parts (h : FromRules owner rule vars xs)
    (hp : List.SublistForall₂ (fun y x => rule' y = rule x ∧ vars' y ⊆ vars x) ys xs) :
    FromRules owner rule' vars' ys := by
  obtain ⟨l, hl, hsub⟩ := List.sublistForall₂_iff.mp hp
  refine ⟨?_, fun y hy v hv hd => ?_⟩
  · rw [PairedLists.map_eq_map (hl.imp fun _ _ h => h.1)]
    exact h.nodup.sublist (hsub.map rule)
  · obtain ⟨x, hx, hrule, hvars⟩ := PairedLists.exists_mem hl hy
    rw [hrule]
    exact h.owned x (hsub.subset hx) v (hvars hv) hd

theorem of_forall₂ (h : FromRules owner rule vars xs)
    (hp : List.Forall₂ (fun x y => rule' y = rule x ∧ vars' y ⊆ vars x) xs ys) : FromRules owner rule' vars' ys :=
  h.of_parts (List.sublistForall₂_iff.mpr ⟨xs, hp.flip, .refl xs⟩)

theorem filterMap {f : α → Option β} (h : FromRules owner rule vars xs)
    (hf : ∀ x y, f x = some y → rule' y = rule x ∧ vars' y ⊆ vars x) :
    FromRules owner rule' vars' (xs.filterMap f) := by
  refine h.of_parts ?_
  clear h
  induction xs with
  | nil => exact .nil
  | cons x xs ih =>
    cases hx : f x with
    | none => rw [List.filterMap_cons_none hx]; exact .cons_right ih
    | some y => rw [List.filterMap_cons_some hx]; exact .cons (hf x y hx) ih

/-- Variables that each are of one of the parts, in one place. -/
theorem areApart {vs : List Var} (h : FromRules owner rule vars xs) {f : α → Option Var}
    (hf : ∀ x v, f x = some v → v ∈ vars x) (hvs : ∀ v ∈ vs, ∃ x ∈ xs, f x = some v) : AreApart owner vs := by
  intro v hv hvd w hw hwd howner
  obtain ⟨x, hx, hxv⟩ := hvs v hv
  obtain ⟨y, hy, hyw⟩ := hvs w hw
  rw [h.owned x hx v (hf x v hxv) hvd, h.owned y hy w (hf y w hyw) hwd] at howner
  cases List.inj_on_of_nodup_map h.nodup hx hy howner
  exact Option.some.inj (hxv.symm.trans hyw)

end FromRules

/-! ### Aliases -/

/-- What shared variables are to the rules: they stand for themselves as well, and for one variable of a rule at
most. -/
structure AreSound (owner : Var → Nat) (aliases : Aliases) : Prop where
  sort : ∀ p ∈ aliases, p.2.sort = p.1.sort
  isDontCare : ∀ p ∈ aliases, p.1.isDontCare = false ∧ p.2.isDontCare = false
  self : ∀ p ∈ aliases, (p.2, p.2) ∈ aliases
  apart : ∀ p ∈ aliases, ∀ q ∈ aliases, p.2 = q.2 → owner p.1 = owner q.1 → p.1 = q.1

theorem areSound_nil (owner : Var → Nat) : AreSound owner [] :=
  ⟨List.forall_mem_nil _, List.forall_mem_nil _, List.forall_mem_nil _, List.forall_mem_nil _⟩

variable {aliases : Aliases} {vs : List Var} {first : Var}

/-- What was not shared before stands for nothing yet. -/
theorem AreSound.ne_of_unshared (h : AreSound owner aliases) {p : Var × Var} (hp : p ∈ aliases) {v : Var}
    (hv : ∀ q ∈ aliases, q.1 ≠ v) : p.2 ≠ v := hv _ (h.self p hp)

theorem AreSound.append (h : AreSound owner aliases) (hvs : AreApart owner vs) (hfirst : first ∈ vs)
    (hfits : ∀ v ∈ vs, v.isDontCare = false ∧ v.sort = first.sort ∧ ∀ p ∈ aliases, p.1 ≠ v) :
    AreSound owner (aliases ++ vs.map (·, first)) := by
  have hnew : ∀ p ∈ vs.map (·, first), p.1 ∈ vs ∧ p.2 = first := by
    intro p hp
    obtain ⟨v, hv, rfl⟩ := List.mem_map.mp hp
    exact ⟨hv, rfl⟩
  have hunshared {p : Var × Var} (hp : p ∈ aliases) : p.2 ≠ first := h.ne_of_unshared hp (hfits first hfirst).2.2
  refine ⟨?_, ?_, ?_, ?_⟩
  · refine List.forall_mem_append.mpr ⟨h.sort, fun p hp => ?_⟩
    rw [(hnew p hp).2, (hfits p.1 (hnew p hp).1).2.1]
  · refine List.forall_mem_append.mpr ⟨h.isDontCare, fun p hp => ⟨(hfits p.1 (hnew p hp).1).1, ?_⟩⟩
    rw [(hnew p hp).2]
    exact (hfits first hfirst).1
  · refine List.forall_mem_append.mpr ⟨fun p hp => List.mem_append_left _ (h.self p hp), fun p hp => ?_⟩
    rw [(hnew p hp).2]
    exact List.mem_append_right _ (List.mem_map.mpr ⟨first, hfirst, rfl⟩)
  · intro p hp q hq hpq howner
    rcases List.mem_append.mp hp with hp | hp <;> rcases List.mem_append.mp hq with hq | hq
    · exact h.apart p hp q hq hpq howner
    · exact absurd (hpq.trans (hnew q hq).2) (hunshared hp)
    · exact absurd (hpq.symm.trans (hnew p hp).2) (hunshared hq)
    · have hfit {p : Var × Var} (hp : p ∈ vs.map (·, first)) := hfits p.1 (hnew p hp).1
      exact hvs p.1 (hnew p hp).1 (hfit hp).1 q.1 (hnew q hq).1 (hfit hq).1 howner

/-! ### Computations -/

/-- Started with sound aliases, from whatever number, the computation leaves sound ones, and gives values of which
`p` holds. -/
def KeepsSound (owner : Var → Nat) (p : α → Prop) (x : Merging α) : Prop :=
  ∀ aliases n, AreSound owner aliases → From n (fun _ r => p r.1 ∧ AreSound owner r.2) (x.run aliases)

namespace KeepsSound
variable {p : α → Prop} {q : β → Prop}

theorem mono {q : α → Prop} {x : Merging α} (hx : KeepsSound owner p x) (hpq : ∀ a, p a → q a) : KeepsSound owner q x :=
  fun aliases n ha r k hrun => ⟨(hx aliases n ha r k hrun).1, (hx aliases n ha r k hrun).2.imp_left (hpq _)⟩

theorem pure {a : α} (h : p a) : KeepsSound owner p (Pure.pure a) := fun _ _ ha => .pure ⟨h, ha⟩

theorem bind {x : Merging α} {f : α → Merging β} (hx : KeepsSound owner p x)
    (hf : ∀ a, p a → KeepsSound owner q (f a)) : KeepsSound owner q (x >>= f) := by
  intro aliases n ha
  rw [StateT.run_bind]
  exact (hx aliases n ha).bind fun k r _ hr => hf r.1 hr.1 r.2 k hr.2

theorem ite {c : Prop} [Decidable c] {x y : Merging α} (hx : c → KeepsSound owner p x)
    (hy : ¬c → KeepsSound owner p y) : KeepsSound owner p (if c then x else y) := by
  by_cases h : c
  · rw [if_pos h]; exact hx h
  · rw [if_neg h]; exact hy h

theorem lift {x : Build α} (hx : ∀ n, From n (fun _ => p) x) : KeepsSound owner p (liftM x) := by
  intro aliases n ha
  exact (hx n).bind fun k a _ h => From.pure ⟨h, ha⟩

theorem mapM {r : α → β → Prop} {f : α → Merging β} :
    ∀ {l : List α}, (∀ a ∈ l, KeepsSound owner (r a) (f a)) → KeepsSound owner (List.Forall₂ r l) (l.mapM f)
  | [], _ => by
    rw [List.mapM_nil]
    exact pure .nil
  | a :: l, h => by
    rw [List.mapM_cons]
    refine (h a List.mem_cons_self).bind fun b hb => ?_
    exact (mapM fun c hc => h c (List.mem_cons_of_mem a hc)).bind fun bs hbs => pure (.cons hb hbs)

end KeepsSound

/-! ### Shared variables -/

theorem keepsSound_share (hvs : AreApart owner vs) : KeepsSound owner (fun _ => True) (share vs) := by
  intro aliases n ha
  cases vs with
  | nil => exact .pure ⟨trivial, ha⟩
  | cons first vs =>
    have hrun : (share (first :: vs)).run aliases =
        if (first :: vs).all fun v => !v.isDontCare && v.sort == first.sort && !aliases.any (·.1 == v) then
          pure (some first, aliases ++ (first :: vs).map (·, first))
        else pure (none, aliases) := by
      show (if _ then _ else _ : Merging (Option Var)).run aliases = _
      split <;> rfl
    rw [hrun]
    refine .ite (fun hfits => ?_) fun _ => .pure ⟨trivial, ha⟩
    refine .pure ⟨trivial, ha.append hvs List.mem_cons_self fun v hv => ?_⟩
    simpa [and_assoc] using List.all_eq_true.mp hfits v hv

/-- One variable for the terms, if they are all variables. -/
theorem keepsSound_shareVariables {items : List Item} (hitems : FromRules owner (·.2) (·.1.vars) items) :
    KeepsSound owner (fun _ => True) (shareVariables items) := by
  unfold shareVariables
  split
  · rename_i vars hvars
    have hapart : AreApart owner vars := by
      refine hitems.areApart (f := (·.1.asVar?)) (fun x v hv => ?_) fun v hv => ?_
      · rw [Term.vars_of_var (Term.node_of_asVar? hv)]
        exact List.mem_singleton_self v
      · exact PairedLists.exists_mem (PairedLists.of_mapM_eq_some hvars).flip hv
    refine (keepsSound_share hapart).bind fun o _ => ?_
    cases o with
    | none => exact .pure trivial
    | some v => exact .bind (.lift (Term.grows_new (.var v))) fun _ _ => .pure trivial
  · exact .pure trivial

theorem keepsSound_mergeFrame {column : List Var} (hcolumn : AreApart owner column) :
    KeepsSound owner (fun _ => True) (mergeFrame column) := by
  unfold mergeFrame
  split
  · exact .pure trivial
  · split
    · exact .pure trivial
    · exact keepsSound_share hcolumn

theorem keepsSound_mergeColumns : ∀ {columns : List (List Var)}, (∀ c ∈ columns, AreApart owner c) →
    KeepsSound owner (fun _ => True) (mergeColumns columns)
  | [], _ => .pure trivial
  | c :: columns, h => by
    obtain ⟨hc, hcolumns⟩ := List.forall_mem_cons.mp h
    unfold mergeColumns
    refine (keepsSound_mergeFrame hc).bind fun o _ => ?_
    cases o with
    | none => exact .pure trivial
    | some v => exact (keepsSound_mergeColumns hcolumns).bind fun _ _ => .pure trivial

/-- The frames of parts of different rules. -/
theorem keepsSound_mergeFrames {rule : α → Nat} {vars : α → List Var} {xs : List α} (h : FromRules owner rule vars xs)
    {frames : α → List Var} (hframes : ∀ x, frames x ⊆ vars x) :
    KeepsSound owner (fun _ => True) (mergeFrames (xs.map frames)) := by
  unfold mergeFrames
  split
  · exact .pure trivial
  · rename_i first others heq
    split
    · exact .pure trivial
    · refine keepsSound_mergeColumns fun c hc => ?_
      obtain ⟨i, -, rfl⟩ := List.mem_map.mp hc
      refine h.areApart (f := fun x => (frames x)[i]?)
        (fun x v hv => hframes x (List.mem_of_getElem? hv)) fun v hv => ?_
      obtain ⟨f, hf, hv⟩ := List.mem_filterMap.mp hv
      obtain ⟨x, hx, rfl⟩ := List.mem_map.mp hf
      exact ⟨x, hx, hv⟩

/-! ### Shapes -/

section Shapes
variable {items : List Item} (h : FromRules owner (·.2) (·.1.vars) items)
include h

theorem fromRules_applications? {label : Label} {arity : Nat} {s : SortName} {parts : List (List Term × Nat)}
    (hparts : applications? label arity s items = some parts) :
    FromRules owner (·.2) (·.1.flatMap Term.vars) parts := by
  refine h.of_forall₂ ((PairedLists.of_mapM_eq_some hparts).imp fun x y hxy => ?_)
  dsimp only at hxy
  split at hxy
  · rename_i l args s' hn
    split at hxy
    · cases hxy
      refine ⟨rfl, Term.flatMap_vars_subset fun c hc => ?_⟩
      rw [Term.children, hn]
      cases l with
      | const l => exact hc
      | freezer f => exact List.mem_cons_of_mem f hc
    · cases hxy
  · cases hxy

/-- Terms taken apart into their parts and their frames. -/
theorem fromRules_of_unzip {f : Item → Option ((List Term × Nat) × List Var)}
    (hf : ∀ x y, f x = some y → y.1.2 = x.2 ∧ y.1.1 ⊆ x.1.children ∧ y.2 ⊆ x.1.node.ownVars)
    {parts : List (List Term × Nat)} {frames : List (List Var)}
    (hparts : List.unzip <$> items.mapM f = some (parts, frames)) :
    FromRules owner (·.2) (·.1.flatMap Term.vars) parts ∧ KeepsSound owner (fun _ => True) (mergeFrames frames) := by
  obtain ⟨ps, hps, hunzip⟩ := Option.map_eq_some_iff.mp hparts
  rw [List.unzip_eq_map] at hunzip
  cases hunzip
  have hpairs : FromRules owner (·.1.2) (fun p => p.1.1.flatMap Term.vars ++ p.2) ps := by
    refine h.of_forall₂ ((PairedLists.of_mapM_eq_some hps).imp fun x y hxy => ?_)
    obtain ⟨hrule, hterms, hframes⟩ := hf x y hxy
    refine ⟨hrule, List.append_subset.mpr ⟨Term.flatMap_vars_subset hterms, ?_⟩⟩
    exact List.Subset.trans hframes x.1.ownVars_subset
  refine ⟨hpairs.of_forall₂ ?_, keepsSound_mergeFrames hpairs fun p => List.subset_append_right _ _⟩
  exact List.forall₂_map_right_iff.mpr (List.forall₂_same.mpr fun p _ => ⟨rfl, List.subset_append_left _ _⟩)

theorem fromRules_sequences? {length : Nat} {hasFrame : Bool} {parts : List (List Term × Nat)}
    {frames : List (List Var)} (hparts : sequences? length hasFrame items = some (parts, frames)) :
    FromRules owner (·.2) (·.1.flatMap Term.vars) parts ∧ KeepsSound owner (fun _ => True) (mergeFrames frames) := by
  refine fromRules_of_unzip h (fun x y hxy => ?_) hparts
  dsimp only at hxy
  split at hxy
  · rename_i ts frame hn
    split at hxy
    · cases hxy
      rw [Term.children, hn]
      exact ⟨rfl, List.Subset.refl _, List.Subset.refl _⟩
    · cases hxy
  · cases hxy

theorem fromRules_cellGroups? {shape : List (String × Multiplicity)} {parts : List (List Term × Nat)}
    {frames : List (List Var)} (hparts : cellGroups? shape items = some (parts, frames)) :
    FromRules owner (·.2) (·.1.flatMap Term.vars) parts ∧ KeepsSound owner (fun _ => True) (mergeFrames frames) := by
  unfold cellGroups? at hparts
  split at hparts
  · cases hparts
  refine fromRules_of_unzip h (fun x y hxy => ?_) hparts
  dsimp only at hxy
  split at hxy
  · rename_i cs frames hn
    split at hxy
    · cases hxy
      rw [Term.children, hn]
      exact ⟨rfl, List.Subset.refl _, List.Subset.refl _⟩
    · cases hxy
  · cases hxy

end Shapes

/-! ### Positions -/

theorem from_leftOf (x : Item) (n : Nat) : From n (fun _ y => y.2 = x.2 ∧ y.1.vars ⊆ x.1.vars) (leftOf x) := by
  unfold leftOf
  split
  · rename_i l r hn
    refine .pure ⟨rfl, Term.vars_child ?_⟩
    rw [Term.children, hn]
    exact List.mem_cons_self
  · have hleft : From n (fun _ => Term.IsOver (· ∈ x.1.vars)) x.1.leftSide :=
      .of_returns (Side.left.returns_isOver_walk x.1 fun _ hv => hv) (Side.left.gives_walk_true x.1 n).from
    exact hleft.bind fun k l _ hl => .pure ⟨rfl, hl⟩

theorem grows_rightSides (width : Nat) (items : List Item) : Term.Grows (rightSides width items) := by
  refine fun n => From.foldlM (r := fun _ _ => True) trivial fun k byRule _ _ ⟨t, id⟩ _ => ?_
  dsimp only
  split
  · exact .pure trivial
  · exact .ite (fun _ => (Side.right.gives_walk_true t k).from.bind fun _ _ _ _ => .pure trivial) fun _ => .pure trivial

section Parts
variable {go : List Item → Merging Term}
  (hgo : ∀ {items : List Item}, FromRules owner (·.2) (·.1.vars) items → KeepsSound owner (fun _ => True) (go items))
  {items : List Item} (h : FromRules owner (·.2) (·.1.vars) items)
include hgo

theorem keepsSound_mergeParts {parts : List (List Term × Nat)} (h : FromRules owner (·.2) (·.1.flatMap Term.vars) parts)
    (width : Nat) : KeepsSound owner (fun _ => True) (mergeParts go parts width) := by
  refine (KeepsSound.mapM (r := fun _ _ => True) fun i _ => hgo (h.filterMap fun x y hxy => ?_)).mono fun _ _ => trivial
  obtain ⟨t, ht, rfl⟩ := Option.map_eq_some_iff.mp hxy
  exact ⟨rfl, fun v hv => List.mem_flatMap.mpr ⟨t, List.mem_of_getElem? ht, hv⟩⟩

include h

theorem keepsSound_mergeShape (first : Term) : KeepsSound owner (fun _ => True) (mergeShape go first items) := by
  unfold mergeShape
  split
  · split
    · rename_i hparts
      refine (keepsSound_mergeParts hgo (fromRules_applications? h hparts) _).bind fun args _ => ?_
      exact .bind (.lift (Term.grows_new _)) fun _ _ => .pure trivial
    · exact .pure trivial
  · split
    · rename_i hparts
      obtain ⟨hparts, hframes⟩ := fromRules_sequences? h hparts
      refine hframes.bind fun o _ => ?_
      cases o with
      | none => exact .pure trivial
      | some vars =>
        refine (keepsSound_mergeParts hgo hparts _).bind fun merged _ => ?_
        refine .bind (p := fun ts : List Term => ∀ t ∈ ts, True) (.lift fun n => ?_) fun frames _ => ?_
        · exact .mapM_all (fun _ h => h) fun v _ k _ => Term.grows_new (.var v) k
        · exact .bind (.lift fun n => Term.kept_sequence (Term.kept_true n) (Nat.le_refl n) fun _ _ => trivial)
            fun _ _ => .pure trivial
    · exact .pure trivial
  · split
    · rename_i hparts
      obtain ⟨hparts, hframes⟩ := fromRules_cellGroups? h hparts
      refine hframes.bind fun o _ => ?_
      cases o with
      | none => exact .pure trivial
      | some vars =>
        refine (keepsSound_mergeParts hgo hparts _).bind fun contents _ => ?_
        refine .bind (p := fun _ => True) (.lift fun n => ?_) fun _ _ => .pure trivial
        exact CellParts.kept_build (Term.kept_true n) (Nat.le_refl n) ⟨fun _ _ => trivial, fun _ _ => trivial⟩
    · exact .pure trivial
  · exact .pure trivial

theorem keepsSound_position (width : Nat) : KeepsSound owner (fun _ => True) (position width go items) := by
  unfold position
  split
  · have hlefts : KeepsSound owner (List.Forall₂ (fun x y => y.2 = x.2 ∧ y.1.vars ⊆ x.1.vars) items)
        (items.mapM fun item => (leftOf item : Build Item)) := .mapM fun x _ => .lift (from_leftOf x)
    refine hlefts.bind fun lefts hlefts => ?_
    refine .bind (.lift (grows_rightSides width items)) fun byRule _ => ?_
    refine (hgo (h.of_forall₂ hlefts)).bind fun left _ => ?_
    refine .bind (.lift (Term.grows_new (.rightSides byRule))) fun right _ => ?_
    exact .lift (Term.grows_new (.rewrite left right))
  · split
    · exact .pure trivial
    · refine .ite (fun _ => .pure trivial) fun _ => ?_
      refine (keepsSound_shareVariables h).bind fun o _ => ?_
      cases o with
      | some v => exact .pure trivial
      | none =>
        refine (keepsSound_mergeShape hgo h _).bind fun o _ => ?_
        cases o with
        | some t => exact .pure trivial
        | none => exact .lift (Term.grows_new _)

end Parts

theorem keepsSound_upTo (width n : Nat) : ∀ {items : List Item}, FromRules owner (·.2) (·.1.vars) items →
    KeepsSound owner (fun _ => True) (upTo width n items) := by
  induction n with
  | zero => exact fun _ => .lift (Term.grows_new _)
  | succ n ih => exact fun h => keepsSound_position ih h width

end Merge

/-- Merging the bodies of several rules leaves no two variables of a rule with one that stands for both. -/
theorem from_mergeBodies {owner : Var → Nat} (width : Nat) {items : List Merge.Item}
    (h : Merge.FromRules owner (·.2) (·.1.vars) items) (n : Nat) :
    From n (fun _ r => Merge.AreSound owner r.2) (mergeBodies width items) :=
  fun r k hrun => (Merge.keepsSound_upTo width _ h [] n (Merge.areSound_nil owner) r k hrun).imp_right And.right

end RuleCompiler
