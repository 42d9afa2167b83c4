import RuleCompiler.Firing
import RuleCompiler.Proofs.Rebuilding.RightSides

/-! # Bodies along the subject

What a lifted body makes of a subject that its left side reads as is the instance of its right side. A cell is
paired with the first one that still fits, which need not be the one that it was matched with, but has the same
content: every variable of the left side is bound. -/

namespace RuleCompiler

open Build (Always Clashes From Gives)
open MonadAttach (CanReturn)
open CellParts (cellCode)

/-- Whether the node holds the right sides of several rules. -/
def Node.isMerged : Node Term → Bool
  | .rightSides _ => true
  | _ => false

namespace Rebuild

/-! ### Walks that may give up -/

/-- From the number `n` on, the walk gives a value of which `Q` holds, or gives up; if it clashes, `E` holds. -/
def Tries {α : Type} (n : Nat) (Q : α → Prop) (E : Prop) (x : OptionT Build α) : Prop :=
  ∀ k, n ≤ k → (∃ o m, x.run k = (.ok o, m) ∧ k ≤ m ∧ ∀ a, o = some a → Q a) ∨ (∃ c m, x.run k = (.error c, m)) ∧ E

namespace Tries
variable {α β : Type} {n : Nat} {P Q : α → Prop} {R : β → Prop} {E F : Prop} {x : OptionT Build α}

theorem mono (h : Tries n P E x) (hPQ : ∀ a, P a → Q a) (hEF : E → F) : Tries n Q F x := by
  intro k hk
  rcases h k hk with ⟨o, m, hrun, hm, ho⟩ | ⟨hrun, hE⟩
  · exact .inl ⟨o, m, hrun, hm, fun a ha => hPQ a (ho a ha)⟩
  · exact .inr ⟨hrun, hEF hE⟩

theorem pure {a : α} (h : Q a) : Tries n Q E (Pure.pure a) :=
  fun k _ => .inl ⟨some a, k, rfl, Nat.le_refl k, fun _ ha => Option.some.inj ha ▸ h⟩

theorem failure : Tries n Q E failure :=
  fun k _ => .inl ⟨none, k, rfl, Nat.le_refl k, fun _ h => by cases h⟩

theorem bind {f : α → OptionT Build β} (h : Tries n P E x) (hf : ∀ a, P a → Tries n R E (f a)) :
    Tries n R E (x >>= f) := by
  intro k hk
  rcases h k hk with ⟨o, m, hrun, hm, ho⟩ | ⟨⟨c, m, hrun⟩, hE⟩
  · have hbind : (x >>= f).run k = (o.elim (Pure.pure none) fun a => (f a).run : Build (Option β)) m := by
      rw [OptionT.run_bind]
      exact Build.bind_eq hrun
    rw [hbind]
    cases o with
    | none => exact .inl ⟨none, m, rfl, hm, fun _ h => by cases h⟩
    | some a =>
      rcases hf a (ho a rfl) m (Nat.le_trans hk hm) with ⟨o, m', hrun, hm', ho⟩ | herror
      · exact .inl ⟨o, m', hrun, Nat.le_trans hm hm', ho⟩
      · exact .inr herror
  · refine .inr ⟨⟨c, m, ?_⟩, hE⟩
    rw [OptionT.run_bind]
    show (x.run >>= _) k = _
    rw [Build.bind_run, hrun]

theorem lift {y : Build α} (h : ∀ k, n ≤ k → Gives k (fun _ => Q) y) : Tries n Q E (liftM y) := by
  intro k hk
  obtain ⟨a, m, hrun, hm, ha⟩ := h k hk
  have hlift : (liftM y : OptionT Build α).run k = (.ok (some a), m) := by
    show (y >>= fun a => Pure.pure (some a)) k = _
    exact Build.bind_eq hrun
  exact .inl ⟨some a, m, hlift, hm, fun _ h => Option.some.inj h ▸ ha⟩

/-- What follows another computation clashes only where this does. -/
theorem of_follows {x : Build α} {y : Build β} {R : α → β → Prop}
    (h : ∀ k, n ≤ k → Build.Follows k (fun _ => R) x y) :
    Tries n (fun a => Always y (R a)) (Clashes y) (liftM x) := by
  intro k hk
  have hlift : (liftM x : OptionT Build α).run k = (x >>= fun a => Pure.pure (some a) : Build (Option α)) k := rfl
  have hout (m : Nat) : Outcomes (fun a b => k ≤ (x k).2 ∧ R a b) (x k).1 (y m).1 := h k hk m
  rw [hlift, Build.bind_run]
  rcases hx : x k with ⟨r, k'⟩
  rw [hx] at hout
  cases r with
  | ok a =>
    obtain ⟨-, -, hk', -⟩ := (hout 0).exists_right
    refine .inl ⟨some a, k', rfl, hk', fun _ ha => Option.some.inj ha ▸ fun m => ?_⟩
    obtain ⟨b, hb, -, hR⟩ := (hout m).exists_right
    exact ⟨b, (y m).2, Prod.ext hb rfl, hR⟩
  | error c =>
    refine .inr ⟨⟨c, k', rfl⟩, ?_⟩
    rintro b ⟨m, m', hrun⟩
    have herror := hout m
    have hrun : y m = (.ok b, m') := hrun
    rw [hrun] at herror
    cases herror

/-- Where the walk gives up, another computation is made. -/
theorem follows {y : Build β} {z : Build α} {R : α → β → Prop}
    (hx : Tries n (fun a => Always y (R a)) (Clashes y) x)
    (hz : ∀ k, n ≤ k → Build.Follows k (fun _ => R) z y) {k : Nat} (hk : n ≤ k) :
    Build.Follows k (fun _ => R) (x.run >>= fun o => o.elim z Pure.pure) y := by
  intro m
  rw [Build.bind_run]
  rcases hx k hk with ⟨o, k', hrun, hk', ho⟩ | ⟨⟨c, k', hrun⟩, hclash⟩
  · rw [hrun]
    cases o with
    | some a =>
      obtain ⟨b, m', hb, hR⟩ := ho a rfl m
      rw [hb]
      exact .ok ⟨hk', hR⟩
    | none => exact (hz k' (Nat.le_trans hk hk') m).imp fun _ _ _ h => ⟨Nat.le_trans hk' h.1, h.2⟩
  · rw [hrun]
    rcases hy : y m with ⟨_ | b, m'⟩
    · exact .error _ _
    · exact (hclash b ⟨m, m', hy⟩).elim

end Tries

/-! ### Cells -/

/-- The cells of the places, written down. -/
abbrev codes (places : List Place) : List (String × List Symbol) := places.map fun e => cellCode e.1

section Places
variable (L : Labelling) (n : Nat)

/-- Places that are not taken hold parts of the subject. -/
def IsSound (e : Place) : Prop :=
  e.1.multiplicity = L.multiplicity e.1.label ∧ (e.2 = false → L.IsSubject e.1.content)

/-- Only cells like `u` fit, and what is made of those is right. -/
structure Finds (fits : Cell → Build Bool) (inner : Along) (u : Cell) (R : Term → Prop) (E : Prop) : Prop where
  fits : ∀ c : Cell, L.IsSubject c.content → ∀ k, n ≤ k →
    Gives k (fun _ (b : Bool) => b → c.label = u.label ∧ c.content == u.content) (fits c)
  inner : ∀ s, s == u.content → L.IsSubject s → Tries n R E (inner s)

variable {L n} {E : Prop}

theorem tries_takeCell {fits : Cell → Build Bool} {inner : Along} {u : Cell} {R : Term → Prop}
    (h : Finds L n fits inner u R E) : ∀ {places : List Place}, (∀ e ∈ places, IsSound L e) →
      Tries n (fun places' => (∀ e ∈ places', IsSound L e) ∧ ∃ d : Cell, d.label = u.label ∧ R d.content ∧
        (cellCode u :: codes places').Perm (cellCode d :: codes places)) E (takeCell fits inner places)
  | [], _ => by
    rw [takeCell]
    exact .failure
  | (c, true) :: places, hplaces => by
    obtain ⟨hc, hplaces⟩ := List.forall_mem_cons.mp hplaces
    rw [takeCell]
    refine (tries_takeCell h hplaces).bind fun places' ⟨hplaces', d, hlabel, hd, hperm⟩ => .pure ?_
    refine ⟨List.forall_mem_cons.mpr ⟨hc, hplaces'⟩, d, hlabel, hd, ?_⟩
    exact (List.Perm.swap ..).trans ((hperm.cons _).trans (List.Perm.swap ..))
  | (c, false) :: places, hplaces => by
    obtain ⟨hc, hplaces⟩ := List.forall_mem_cons.mp hplaces
    obtain ⟨hmult, hsub⟩ := hc
    have hsub := hsub rfl
    rw [takeCell]
    refine (Tries.lift (h.fits c hsub)).bind fun b hb => ?_
    split
    · rename_i htrue
      obtain ⟨hlabel, hcontent⟩ := hb htrue
      refine (h.inner c.content hcontent hsub).bind fun t ht => .pure ⟨?_, { c with content := t }, hlabel, ht, ?_⟩
      · exact List.forall_mem_cons.mpr ⟨⟨hmult, fun h => by cases h⟩, hplaces⟩
      · have hcode : cellCode c = cellCode u := by
          rw [cellCode, cellCode, hlabel, Term.beq_iff.mp hcontent]
        rw [codes, codes, List.map_cons, List.map_cons, hcode]
        exact List.Perm.swap ..
    · refine (tries_takeCell h hplaces).bind fun places' ⟨hplaces', d, hlabel, hd, hperm⟩ => .pure ?_
      refine ⟨List.forall_mem_cons.mpr ⟨⟨hmult, fun _ => hsub⟩, hplaces'⟩, d, hlabel, hd, ?_⟩
      exact (List.Perm.swap ..).trans ((hperm.cons _).trans (List.Perm.swap ..))

/-- Each cell that holds a rewrite replaces one like that which it was matched with. -/
theorem tries_takeCells {fits : Cell → Cell → Build Bool} {pattern : List (Cell × Along)} {used : List Cell}
    {R : Cell → Term → Prop} (h : List.Forall₂ (fun (p : Cell × Along) (u : Cell) => u.label = p.1.label ∧
      (p.1.content.hasRewrite = false → R p.1 u.content) ∧
        (p.1.content.hasRewrite → Finds L n (fits p.1) p.2 u (R p.1) E)) pattern used) :
    ∀ {places : List Place}, (∀ e ∈ places, IsSound L e) →
      Tries n (fun places' => (∀ e ∈ places', IsSound L e) ∧ ∃ ds,
        List.Forall₂ (fun (p : Cell × Along) (d : Cell) => d.label = p.1.label ∧ R p.1 d.content) pattern ds ∧
          (used.map cellCode ++ codes places').Perm (ds.map cellCode ++ codes places)) E
        ((pattern.filter fun p => p.1.content.hasRewrite).foldlM
          (fun places (p, inner) => takeCell (fits p) inner places) places) := by
  induction h with
  | nil =>
    intro places hplaces
    rw [List.filter_nil, List.foldlM_nil]
    exact .pure ⟨hplaces, [], .nil, .refl _⟩
  | @cons p u pattern used hpu _ ih =>
    intro places hplaces
    obtain ⟨hlabel, hkept, hfinds⟩ := hpu
    cases hr : p.1.content.hasRewrite with
    | false =>
      rw [List.filter_cons, hr, if_neg Bool.false_ne_true]
      refine (ih hplaces).mono (fun places' ⟨hplaces', ds, hds, hperm⟩ => ?_) id
      exact ⟨hplaces', u :: ds, .cons ⟨hlabel, hkept hr⟩ hds, hperm.cons _⟩
    | true =>
      rw [List.filter_cons, hr, if_pos rfl, List.foldlM_cons]
      refine (tries_takeCell (hfinds hr) hplaces).bind fun places₁ ⟨hplaces₁, d, hd, hR, hperm₁⟩ => ?_
      refine (ih hplaces₁).mono (fun places' ⟨hplaces', ds, hds, hperm⟩ => ?_) id
      refine ⟨hplaces', d :: ds, .cons ⟨hd.trans hlabel, hR⟩ hds, ?_⟩
      refine (hperm.cons (cellCode u)).trans ?_
      refine List.perm_middle.symm.trans ((hperm₁.append_left _).trans ?_)
      exact List.perm_middle

end Places

/-! ### Fitting cells -/

section Walk
variable {L : Labelling} {n k rule : Nat} {σ : Substitution} {p s : Term} {roots : List Term}

open Matching

/-- Whether a cell of the pattern fits one of the subject, under the bindings. -/
def fitsCell (rule : Nat) (σ : Substitution) (p c : Cell) : Build Bool := do
  if c.label != p.label then return false
  return !(← matchFrom p.content c.content ⟨σ, some (.singleton rule)⟩).isEmpty

/-- Only cells with the content that the pattern reads as fit. -/
theorem gives_fitsCell (hσ : Settled σ) (k : Nat) {p u c : Cell} (hlabel : u.label = p.label)
    (hp : L.IsLiftedPattern p.content) (hu : L.IsSubject u.content) (hread : LiftedReads L σ p.content u.content)
    (hc : L.IsSubject c.content) :
    Gives k (fun _ (b : Bool) => b → c.label = u.label ∧ c.content == u.content) (fitsCell rule σ p c) := by
  unfold fitsCell
  split
  · exact .pure fun h => by cases h
  rename_i hsame
  have hsame : c.label = p.label := by simpa using hsame
  let st : MatchState := ⟨σ, some (.singleton rule)⟩
  have hkeeps : From k (AllBind fun _ t => isCompared t) (matchFrom p.content c.content st) :=
    below_keeps passesOn_isCompared _ k _ _ _ (Nat.zero_le k) hc.isCompared hσ
  have hstates : Gives k (fun _ sts => ∀ st' ∈ sts, Settled st'.substitution ∧
      st'.substitution.Extends σ ∧ LiftedReadable L st'.substitution p.content c.content)
      (matchFrom p.content c.content st) := by
    have hends : Always (matchFrom p.content c.content st) AllSettled := ends_matchFrom hp.hasPlainKeys hc.isCompared hσ
    obtain ⟨sts, m, hrun, hsettled⟩ := hends k
    refine ⟨sts, m, hrun, (hkeeps sts m hrun).1, fun st' hst' => ⟨hsettled st' hst', ?_⟩⟩
    exact matchFrom_liftedReadable L p.content c.content st sts ⟨k, m, hrun⟩ st' hst'
  refine hstates.bind fun m sts _ hsts => .pure fun hfits => ⟨hsame.trans hlabel.symm, ?_⟩
  have hne : sts ≠ [] := fun hno => by rw [hno] at hfits; cases hfits
  obtain ⟨st', hst'⟩ := List.exists_mem_of_ne_nil _ hne
  obtain ⟨hsettled, hext, hreadable⟩ := hsts st' hst'
  exact (hreadable hsettled hp hc).unique hc hu (hread.mono hext)

/-! ### The walk -/

theorem buildResult_eq (r : Rule) : buildResult rule r p s σ =
    (p.fold (node rule σ) s).run >>= fun o => o.elim (σ.apply r.right) pure := by
  unfold buildResult rebuildAlong
  refine bind_congr fun o => ?_
  cases o <;> rfl

/-- Lifted terms of one rule, among the terms of `roots`. -/
structure IsBody (L : Labelling) (roots : List Term) (p : Term) : Prop where
  isLifted : p.isLifted
  isFlat : p.HasFlatRewrites
  pattern : L.IsLiftedPattern p
  multiplicities : p.HasMultiplicities L.multiplicity
  isUnmerged : ∀ u ∈ p.nodes, u.node.isMerged = false
  nodes : p.nodes ⊆ roots.flatMap Term.nodes

theorem IsBody.content {cs : List Cell} {frames : List Var} {c : Cell} (h : IsBody L roots p) (hr : p.hasRewrite)
    (hn : p.node = .cells cs frames) (hc : c ∈ cs) : IsBody L roots c.content := by
  have hmem : c.content ∈ p.children := by
    rw [Term.children, hn]
    exact List.mem_map_of_mem hc
  have hbelow := Term.nodes_child hmem
  refine ⟨?_, h.isFlat.child hmem, ?_, h.multiplicities.child hmem, fun u hu => h.isUnmerged u (hbelow hu),
    List.Subset.trans hbelow h.nodes⟩
  · rcases Term.isLifted_cases h.isLifted with hno | ⟨l, r, hn', -⟩ | ⟨-, cs', frames', hn', hcs⟩
    · rw [hr] at hno
      cases hno
    · cases hn.symm.trans hn'
    · cases hn.symm.trans hn'
      exact hcs c hc
  · cases h.pattern with
    | plain hp =>
      rw [hp.hasRewrite] at hr
      cases hr
    | rewrite hn' => cases hn.symm.trans hn'
    | cells _ hn' hcs =>
      cases hn.symm.trans hn'
      exact hcs c hc

/-- The term is the instance of the right side. -/
def IsRightInstance (σ : Substitution) (p t : Term) : Prop := ∀ r, Side.IsSide .right p r → σ.IsInstance r t

/-- The instance of the right side clashes. -/
def RightClashes (σ : Substitution) (p : Term) : Prop :=
  ∀ r, Side.IsSide .right p r → Clashes (σ.instantiate r)

theorem node_of_not_hasRewrite (h : p.hasRewrite = false) (below : List Along) :
    node rule σ p below s = pure s := by
  unfold node
  rw [h]
  rfl

theorem node_of_rewrite {l r : Term} (hn : p.node = .rewrite l r) (hr : r.node.isMerged = false)
    (below : List Along) : node rule σ p below s = liftM (σ.apply r) := by
  have hrewrite := Term.hasRewrite_of_isRewrite (t := p) (by rw [Term.isRewrite, hn])
  unfold node
  rw [hrewrite, Bool.not_true, if_neg Bool.false_ne_true, hn]
  dsimp only
  split
  · rename_i hmerged
    rw [hmerged] at hr
    cases hr
  · rfl

theorem node_of_cells {ps cs : List Cell} {pFrames frames : List Var} (hr : p.hasRewrite)
    (hn : p.node = .cells ps pFrames) (hs : s.node = .cells cs frames) (below : List Along) :
    node rule σ p below s = (do
      CellParts.build ⟨← cells (fitsCell rule σ) (ps.zip below) cs, frames⟩) := by
  unfold node
  rw [hr, hn, hs]
  rfl

/-- What is right of a rewrite is instantiated. -/
theorem tries_apply {l r : Term} (hn : p.node = .rewrite l r) (hr : r.hasRewrite = false)
    (h : ∀ k, n ≤ k → Build.Follows k (fun _ u v => u == v) (σ.apply r) (σ.instantiate r)) :
    Tries n (IsRightInstance σ p) (RightClashes σ p) (liftM (σ.apply r)) := by
  have hside {r' : Term} (hr' : Side.IsSide .right p r') : r == r' :=
    BEq.symm (hr'.beq (.side hn (.kept hr BEq.rfl)))
  refine (Tries.of_follows h).mono (fun t ht r' hr' => ?_) fun hclash r' hr' =>
    Substitution.clashes_congr hclash (hside hr')
  have hinst : σ.IsInstance r t := ht.mono fun _ h => BEq.symm h
  exact hinst.congr (hside hr')

theorem isRightInstance_of_reads (hr : p.hasRewrite = false) (h : LiftedReads L σ p s) : IsRightInstance σ p s :=
  fun _ hside => (Substitution.isInstance_of_reads (h.reads hr)).congr (BEq.symm (hside.beq_self hr))

/-- A clash in a cell is one in the group. -/
theorem RightClashes.of_content {cs : List Cell} {frames : List Var} {c : Cell} (hr : p.hasRewrite)
    (hn : p.node = .cells cs frames) (hc : c ∈ cs) (h : RightClashes σ c.content) : RightClashes σ p := by
  intro r hside
  obtain ⟨es, v, hes, hv, hrv⟩ := hside.exists_cells hn hr
  obtain ⟨e, he, -, -, hce⟩ := PairedLists.exists_mem hes hc
  refine Substitution.clashes_congr (Substitution.clashes_child ?_ (h e.content hce)) (BEq.symm hrv)
  rw [Term.children, Term.node_of_build (List.ne_nil_of_mem he) hv]
  exact List.mem_map_of_mem (SortedList.mem_sort.mpr he)

/-- Cells with the instances of the right sides make the instance of the right side. -/
theorem isRightInstance_cells {cs ds made : List Cell} {frames : List Var} {rests : List (List Cell)} {t : Term}
    (hr : p.hasRewrite) (hn : p.node = .cells cs frames) (hp : p.HasMultiplicities L.multiplicity)
    (hds : List.Forall₂ (fun c d : Cell => d.label = c.label ∧ IsRightInstance σ c.content d.content) cs ds)
    (hf : List.Forall₂ (NamesCells L σ) frames rests)
    (hmade : ∀ c ∈ made, c.multiplicity = L.multiplicity c.label)
    (hperm : (made.map cellCode).Perm ((ds ++ rests.flatten).map cellCode))
    (ht : CanReturn (CellParts.build { cells := made }) t) : IsRightInstance σ p t := by
  intro r hside
  obtain ⟨es, v, hes, hv, hrv⟩ := hside.exists_cells hn hr
  obtain ⟨c, hc, -⟩ := Term.exists_cell_hasRewrite hn hr
  obtain ⟨e, he, -⟩ := PairedLists.exists_mem hes hc
  have hinst : List.Forall₂ (fun e d : Cell => d.label = e.label ∧ σ.IsInstance e.content d.content) es ds :=
    PairedLists.comp (fun _ _ _ (h : Side.IsCellSide .right _ _) h' => ⟨h'.1.trans h.1.symm, h'.2 _ h.2.2⟩) hes.flip hds
  exact (Substitution.isInstance_cells (Term.multiplicity_of_isCellSide hes (hp.cells hn)) (List.ne_nil_of_mem he) hv
    hinst hf hmade hperm ht).congr (BEq.symm hrv)

/-- A group of cells is walked along another one that it reads as, where its cells are walked so. -/
theorem tries_cells {cs ss used : List Cell} {frames : List Var} {rests : List (List Cell)} (hσ : Settled σ)
    (hr : p.hasRewrite) (hn : p.node = .cells cs frames) (hp : IsBody L roots p)
    (hss : ∀ c ∈ ss, IsSound L (c, false)) (hused : ∀ u ∈ used.map (·.content), L.IsSubject u)
    (hl : List.Forall₂ (fun c u => u.label = c.label) cs used)
    (hc : List.Forall₂ (LiftedReads L σ) (cs.map (·.content)) (used.map (·.content)))
    (hperm : (ss.map cellCode).Perm ((used ++ rests.flatten).map cellCode))
    (hwalk : ∀ c ∈ cs, ∀ s, LiftedReads L σ c.content s → L.IsSubject s →
      Tries n (IsRightInstance σ c.content) (RightClashes σ c.content) (c.content.fold (node rule σ) s)) :
    Tries n (fun made => (∀ c ∈ made, c.multiplicity = L.multiplicity c.label) ∧ ∃ ds,
        List.Forall₂ (fun c d : Cell => d.label = c.label ∧ IsRightInstance σ c.content d.content) cs ds ∧
          (made.map cellCode).Perm ((ds ++ rests.flatten).map cellCode)) (RightClashes σ p)
      (cells (fitsCell rule σ) (cs.map fun c => (c, c.content.fold (node rule σ))) ss) := by
  rw [List.forall₂_map_left_iff, List.forall₂_map_right_iff] at hc
  have hpairs : List.Forall₂ (fun (e : Cell × Along) (u : Cell) => u.label = e.1.label ∧
      (e.1.content.hasRewrite = false → IsRightInstance σ e.1.content u.content) ∧
        (e.1.content.hasRewrite → Finds L n (fitsCell rule σ e.1) e.2 u (IsRightInstance σ e.1.content)
          (RightClashes σ p))) (cs.map fun c => (c, c.content.fold (node rule σ))) used := by
    rw [List.forall₂_map_left_iff]
    refine PairedLists.imp_mem (PairedLists.and hl hc) fun c hcm u hum h' => ?_
    obtain ⟨hlabel, hread⟩ := h'
    have hu : L.IsSubject u.content := hused u.content (List.mem_map_of_mem hum)
    have hbody := hp.content hr hn hcm
    refine ⟨hlabel, fun hno => isRightInstance_of_reads hno hread, fun _ => ⟨?_, ?_⟩⟩
    · exact fun c' hc' k _ => gives_fitsCell hσ k hlabel hbody.pattern hu hread hc'
    · refine fun s hsu hs => (hwalk c hcm s (hread.congr (BEq.symm hsu)) hs).mono (fun _ h => h) ?_
      exact RightClashes.of_content hr hn hcm
  have hplaces : ∀ e ∈ ss.map fun c => (c, false), IsSound L e := fun e he => by
    obtain ⟨c, hc, rfl⟩ := List.mem_map.mp he
    exact hss c hc
  unfold cells
  have htakes := tries_takeCells (R := fun c => IsRightInstance σ c.content) hpairs hplaces
  refine htakes.bind fun places ⟨hsound, ds, hds, hcodes⟩ => .pure ⟨fun c hc => ?_, ds, ?_, ?_⟩
  · obtain ⟨e, he, rfl⟩ := List.mem_map.mp hc
    exact (hsound e he).1
  · rwa [List.forall₂_map_left_iff] at hds
  · -- the cells that were matched stand on both sides
    have hstart : codes (ss.map fun c => (c, false)) = ss.map cellCode := by
      rw [codes, List.map_map]
      rfl
    rw [hstart] at hcodes
    rw [List.map_append] at hperm ⊢
    rw [List.map_map]
    refine (List.perm_append_left_iff (used.map cellCode)).mp (hcodes.trans ?_)
    refine (hperm.append_left _).trans ?_
    rw [← List.append_assoc, ← List.append_assoc]
    exact List.perm_append_comm.append_right _

/-- The walk gives the instance of the right side, or gives up. -/
theorem tries_rebuild (hσ : Settled σ)
    (happly : ∀ t : Term, t.nodes ⊆ roots.flatMap Term.nodes → ∀ k, n ≤ k →
      Build.Follows k (fun _ u v => u == v) (σ.apply t) (σ.instantiate t))
    (hp : IsBody L roots p) (hread : LiftedReads L σ p s) (hs : L.IsSubject s) :
    Tries n (IsRightInstance σ p) (RightClashes σ p) (p.fold (node rule σ) s) := by
  induction p using Term.induction generalizing s with
  | h p ih =>
    rw [Term.fold_eq]
    rcases Term.isLifted_cases hp.isLifted with hr | ⟨l, r, hn, -⟩ | ⟨hr, cs, frames, hn, -⟩
    · rw [node_of_not_hasRewrite hr]
      exact .pure (isRightInstance_of_reads hr hread)
    · have hmem : r ∈ p.children := by
        rw [Term.children, hn]
        exact List.mem_cons_of_mem l List.mem_cons_self
      have hbelow := Term.nodes_child hmem
      rw [node_of_rewrite hn (hp.isUnmerged r (hbelow r.self_mem_nodes))]
      exact tries_apply hn (hp.isFlat.sides hn).2 (happly r (List.Subset.trans hbelow hp.nodes))
    · cases hread with
      | plain hno => simp [hr] at hno
      | rewrite hn' => cases hn.symm.trans hn'
      | @cells _ _ _ ss used _ rests _ hn' hsn hused hl hc hf hperm =>
        cases hn.symm.trans hn'
        have hzip : cs.zip (p.children.map (Term.fold (node rule σ))) =
            cs.map fun c => (c, c.content.fold (node rule σ)) := by
          rw [Term.children, hn, Node.children, List.map_map]
          simpa using List.zip_map' (f := id) (g := Term.fold (node rule σ) ∘ fun c : Cell => c.content) (l := cs)
        have hss : ∀ c ∈ ss, IsSound L (c, false) := fun c hc => by
          have hmem : c.content ∈ s.children := by
            rw [Term.children, hsn]
            exact List.mem_map_of_mem hc
          exact ⟨(IsSubject.cells hs hsn).1 c hc, fun _ => hs.child hmem⟩
        rw [node_of_cells hr hn hsn, hzip]
        refine (tries_cells hσ hr hn hp hss hused hl hc hperm fun c hcm s hread hs => ?_).bind ?_
        · refine ih c.content ?_ (hp.content hr hn hcm) hread hs
          rw [Term.children, hn]
          exact List.mem_map_of_mem hcm
        · rintro made ⟨hmade, ds, hds, hcodes⟩
          refine Tries.lift fun k _ => ?_
          obtain ⟨t, m, hrun, -⟩ := CellParts.ends_build { cells := made } k
          have hgrows : From k (fun _ _ => True) (CellParts.build { cells := made }) := by
            rw [CellParts.build_eq]
            exact Term.grows_new _ k
          refine ⟨t, m, hrun, (hgrows t m hrun).1, ?_⟩
          exact isRightInstance_cells hr hn hp.multiplicities hds hf hmade hcodes ⟨k, m, hrun⟩

end Walk

end Rebuild

end RuleCompiler
