import RuleCompiler.Proofs.Sharing.NormalForm

/-! # Lists made again

A list takes its parts one by one. An unknown part closes the run of known items before it, so the run
is a new node, though with the same items; a run that is passed as its only item becomes that run again. -/

namespace RuleCompiler

namespace ListParts

open Term (Equal Redone Renews Passed Rebuilt)
open Build (Gives)

variable {ops : CollectionOps} {t u d : Term} {p : ListParts} {n k : Nat}

/-! ### Parts -/

theorem isRun_of_isPart (h : isPart ops t) : isRun ops t = false := by
  rw [isPart, Bool.and_eq_true, Bool.not_eq_true'] at h
  by_contra hrun
  obtain ⟨items, hn, -⟩ := node_of_isRun (by simpa using hrun)
  simp [Term.isListOf, hn] at h

theorem concat_eq_addOperand (hlist : t.isListOf p.ops = false) (hunit : p.ops.isUnit t = false) :
    p.concat t = p.addOperand t := by
  rw [concat_of_not_list hlist, hunit]
  rfl

theorem concat_item (hop : p.ops.isOperator) (ht : isItem p.ops t) : p.concat t = pure (p.addItem t) := by
  simp only [isItem, hop, Bool.not_true, Bool.false_or, Bool.and_eq_true, isPart,
    Bool.not_eq_true'] at ht
  obtain ⟨⟨hlist, hunit⟩, hresolved⟩ := ht
  rw [concat_eq_addOperand hlist hunit, addOperand, isUnresolved_ops, hresolved]
  rfl

theorem concat_run {items : List Term} (hn : t.node = .list p.ops items [] []) :
    p.concat t = pure (items.foldl addItem p) := by
  unfold concat
  rw [hn]
  simp only [if_true, List.isEmpty_nil]

theorem foldlM_addPart_items {ts : List Term} (h : ∀ t ∈ ts, isItem ops t) :
    ∀ {p : ListParts}, p.ops = ops → ts.foldlM (addPart ops) p = pure (ts.foldl addItem p) := by
  induction ts with
  | nil => exact fun _ => rfl
  | cons t ts ih =>
    intro p hp
    obtain ⟨ht, hts⟩ := List.forall_mem_cons.mp h
    have hadd : addPart ops p t = pure (p.addItem t) := by
      unfold addPart
      split
      · rename_i hop
        exact concat_item (hp ▸ hop) (hp ▸ ht)
      · rfl
    have hops : (p.addItem t).ops = ops := by
      unfold addItem
      split <;> exact hp
    rw [List.foldlM_cons, hadd, pure_bind, List.foldl_cons, ih hts hops]

/-! ### Unknown parts -/

/-- The unknown parts are `ds`, of which the last may be the run of items on the right for now. -/
inductive Holding (n k : Nat) (p : ListParts) : List Term → Prop where
  | parts {ds : List Term} (hright : p.right = []) (h : List.Forall₂ (Redone n k) ds p.base) :
      Holding n k p ds
  | run {ds : List Term} {d : Term} (hd : d.node = .list p.ops p.right [] []) (hne : p.right ≠ [])
      (hedit : d.isEditable = false) (h : List.Forall₂ (Redone n k) ds p.base) : Holding n k p (ds ++ [d])

/-- The unknown parts have become those of `q`, everything else is as in `p`. -/
structure Settled (n k : Nat) (p : ListParts) (ds : List Term) (q : ListParts) : Prop where
  ops : q.ops = p.ops
  left : q.left = p.left
  right : q.right = []
  base : List.Forall₂ (Redone n k) ds q.base

theorem gives_closeRight {ds : List Term} (h : Holding n k p ds) (hn : n ≤ k) :
    Gives k (fun k' => Settled n k' p ds) p.closeRight := by
  unfold closeRight
  cases h with
  | parts hright h =>
    rw [hright, List.isEmpty_nil, if_pos rfl]
    exact .pure ⟨rfl, rfl, hright, h⟩
  | @run ds d hd hne hedit h =>
    rw [if_neg (by simpa using hne)]
    refine (Term.gives_new (m := .list p.ops p.right [] []) rfl k).bind fun k' u hk hu => .pure ?_
    obtain ⟨hfresh, huedit, hun⟩ := hu
    have hrun : Redone n k' d u := .anew (hun.trans hd.symm) hedit huedit (hfresh.mono hn (Nat.le_refl k'))
    exact ⟨rfl, rfl, rfl, List.rel_append (h.imp fun _ _ h => h.mono (Nat.le_refl n) hk) (.cons hrun .nil)⟩

theorem gives_concat_unknown {ds : List Term} (h : Holding n k p ds) (hpart : isPart p.ops t)
    (ht : isUnresolved { ops := p.ops } t) (hn : n ≤ k) :
    Gives k (fun k' => Settled n k' p (ds ++ [t])) (p.concat t) := by
  rw [isPart, Bool.and_eq_true, Bool.not_eq_true', Bool.not_eq_true'] at hpart
  rw [concat_eq_addOperand hpart.1 hpart.2, addOperand, isUnresolved_ops, ht, if_pos rfl, addBase]
  refine (gives_closeRight h hn).bind fun k' q _ hq => .pure ?_
  exact ⟨hq.ops, hq.left, hq.right, List.rel_append hq.base (.cons .kept .nil)⟩

/-- What a list with unknown parts asks of one of them. -/
def Admits (ops : CollectionOps) (b : Term) : Prop :=
  if isRun ops b then b.isEditable = false ∧ ∀ c ∈ b.children, isItem ops c else isUnresolved { ops } b

section Base
variable {left right base₀ : List Term} (hn : t.node = .list ops left base₀ right) {b : Term}
include hn

theorem gives_concat_part {ds : List Term} (h : Holding n k p ds) (hp : p.ops = ops) (hb : isPart ops b)
    (hok : Admits ops b) (hd : Renews d b) (hu : Passed t d u) (hk : n ≤ k) :
    Gives k (fun k' => Settled n k' p (ds ++ [d])) (p.concat u) := by
  rw [Admits, if_neg (by rw [isRun_of_isPart hb]; exact Bool.false_ne_true)] at hok
  rw [← isPart_congr hd.beq] at hb
  rw [← isUnresolved_congr rfl hd.beq] at hok
  cases hu with
  | child =>
    subst hp
    exact gives_concat_unknown h hb hok hk
  | item hn' _ hd' =>
    rw [hn] at hn'
    cases hn'
    simp [isPart, Term.isListOf, hd'] at hb

theorem concat_run_passed (hp : p.ops = ops) (hbase : p.base ≠ []) (hright : p.right = [])
    (hb : isRun ops b) (hok : Admits ops b) (hd : Renews d b) (hu : Passed t d u) :
    ∃ items, items ≠ [] ∧ d.node = .list ops items [] [] ∧ d.isEditable = false ∧
      p.concat u = pure { p with right := items } := by
  rw [Admits, if_pos hb] at hok
  obtain ⟨hedit, hitems⟩ := hok
  obtain ⟨items, hdn, hne⟩ := node_of_isRun ((isRun_congr hd.beq).trans hb)
  refine ⟨items, hne, hdn, hd.isEditable.trans hedit, ?_⟩
  cases hu with
  | child =>
    subst hp
    rw [concat_run hdn, foldl_addItem_right hbase, hright, List.nil_append]
  | item hn' hop hd' =>
    rw [hn] at hn'
    cases hn'
    rw [hd'] at hdn
    cases hdn
    have hc := Term.children_congr hd.beq
    rw [Term.children, hd'] at hc
    obtain ⟨c, hc, huc⟩ := PairedLists.exists_mem hc List.mem_cons_self
    have hitem : isItem p.ops u := by
      rw [hp, isItem_congr huc]
      exact hitems c hc
    have hadd : p.addItem u = { p with right := [u] } := by
      rw [addItem, if_neg (by simpa using hbase), hright, List.nil_append]
    rw [concat_item (hp ▸ hop) hitem, hadd]

/-- Unknown parts with runs of items between them become the parts that they were, a run that comes
as its only item too. -/
theorem gives_concatAll (base : List Term) : ∀ {ds ds₀ us : List Term} {p : ListParts} {k : Nat},
    runsApart ops base → base ≠ [] → (∀ b ∈ base, Admits ops b) → List.Forall₂ Renews ds base →
      List.Forall₂ (Passed t) ds us → p.ops = ops → Holding n k p ds₀ → n ≤ k →
        Gives k (fun k' => Settled n k' p (ds₀ ++ ds)) (us.foldlM concat p) := by
  induction base using runsApart.induct with
  | case1 => exact fun _ h => absurd rfl h
  | case2 b =>
    intro ds ds₀ us p k hruns _ hok hds hus hp hheld hk
    cases hds with
    | cons hd hds =>
    cases hds
    cases hus with
    | cons hu hus =>
    cases hus
    rw [List.foldlM_cons]
    refine (gives_concat_part hn hheld hp hruns (hok b List.mem_cons_self) hd hu hk).bind
      fun k' q _ hq => ?_
    rw [List.foldlM_nil]
    exact .pure hq
  | case3 b c base ih ih' =>
    intro ds ds₀ us p k hruns _ hok hds hus hp hheld hk
    rw [runsApart, Bool.and_eq_true] at hruns
    obtain ⟨hb, hruns⟩ := hruns
    obtain ⟨hbok, hok⟩ := List.forall_mem_cons.mp hok
    cases hds with
    | @cons d _ ds _ hd hds =>
    cases hus with
    | @cons _ u _ us hu hus =>
    rw [List.foldlM_cons]
    refine (gives_concat_part hn hheld hp hb hbok hd hu hk).bind fun k' q hk' hq => ?_
    have hqops := hq.ops.trans hp
    have hk' := Nat.le_trans hk hk'
    -- what is settled after `q` is settled after `p`
    have hafter {k'' : Nat} {ds' : List Term} {q' r : ListParts} (hr : Settled n k'' q' ds' r)
        (hops : q'.ops = q.ops) (hleft : q'.left = q.left) : Settled n k'' p ds' r :=
      ⟨hr.ops.trans (hops.trans hq.ops), hr.left.trans (hleft.trans hq.left), hr.right, hr.base⟩
    rw [List.append_cons]
    split at hruns
    · rename_i hc
      rw [Bool.and_eq_true, Bool.not_eq_true'] at hruns
      obtain ⟨hcok, hok⟩ := List.forall_mem_cons.mp hok
      cases hds with
      | @cons d' _ ds _ hd' hds =>
      cases hus with
      | @cons _ u' _ us hu' hus =>
      have hbase : q.base ≠ [] := by
        intro h
        have hlen := hq.base.length_eq
        simp [h] at hlen
      obtain ⟨items, hne, hd'n, hedit, hconcat⟩ := concat_run_passed hn hqops hbase hq.right hc hcok hd' hu'
      rw [List.foldlM_cons, hconcat, pure_bind, List.append_cons]
      have hheld : Holding n k' { q with right := items } (ds₀ ++ [d] ++ [d']) :=
        .run (by rw [hd'n]; exact hqops ▸ rfl) hne hedit hq.base
      refine (ih (p := { q with right := items }) hruns.2 (by simpa using hruns.1) hok hds hus hqops hheld
        hk').mono ?_
      exact fun _ r _ hr => hafter hr rfl rfl
    · refine (ih' hruns (List.cons_ne_nil _ _) hok hds hus hqops (.parts hq.right hq.base) hk').mono ?_
      exact fun _ r _ hr => hafter hr rfl rfl

/-- Items are never lists of their own operator, so they are passed as they are. -/
theorem eq_of_passed_items {ds us : List Term} (hds : ∀ d ∈ ds, isItem ops d)
    (h : List.Forall₂ (Passed t) ds us) : us = ds := by
  induction h with
  | nil => rfl
  | cons hd _ ih =>
    obtain ⟨hitem, hds⟩ := List.forall_mem_cons.mp hds
    cases hd with
    | child => rw [ih hds]
    | item hn' hop hd =>
      rw [hn] at hn'
      cases hn'
      simp [isItem, hop, isPart, Term.isListOf, hd] at hitem

end Base

/-! ### Lists -/

theorem admits_of_isSettled {base : List Term}
    (hparts : ∀ b ∈ base, (if isRun ops b then !b.isEditable else isUnresolved { ops } b) = true)
    (hruns : ∀ b ∈ base, isRun ops b → ∀ c ∈ b.children, isItem ops c) : ∀ b ∈ base, Admits ops b := by
  intro b hb
  have hb' := hparts b hb
  unfold Admits
  split
  · rename_i hrun
    rw [if_pos hrun, Bool.not_eq_true'] at hb'
    exact ⟨hb', hruns b hb hrun⟩
  · rename_i hrun
    rwa [if_neg hrun] at hb'

/-- A list of a user operator that is not a lone item has two items or more. -/
theorem length_of_not_isLone {items : List Term} (hn : t.node = .list ops items [] []) (hlone : t.isLone = false)
    (hne : items ≠ []) (hop : ops.isOperator) : 1 < items.length := by
  rcases items with _ | ⟨c, _ | ⟨d, items⟩⟩
  · exact absurd rfl hne
  · rw [Term.isLone, hn] at hlone
    simp [hop] at hlone
  · simp

theorem build_of_base {left base right : List Term} (hbase : base ≠ [])
    (hmany : ¬(left.length = 0 ∧ base.length = 1 ∧ right.length = 0)) :
    build { ops, left, base, right } = Term.new (.list ops left base right) := by
  unfold build
  split
  · rename_i hl hb hr
    exact absurd ⟨congrArg List.length hl, congrArg List.length hb, congrArg List.length hr⟩ hmany
  · exact absurd ‹_› hbase
  · exact absurd ‹_› hbase
  · rfl

theorem gives_rebuild {left base right ds us fs : List Term} (hn : t.node = .list ops left base right)
    (hsettled : isSettled { ops, left, base, right }) (hlone : t.isLone = false)
    (hruns : ∀ b ∈ base, isRun ops b → ∀ c ∈ b.children, isItem ops c) (hne : t.children ≠ [])
    (hds : List.Forall₂ Renews ds t.children) (hus : List.Forall₂ (Passed t) ds us) (k : Nat) :
    Gives k (Rebuilt t ds k) (t.rebuild us fs) := by
  have hchildren : t.children = left ++ (base ++ right) := by rw [Term.children, hn]; rfl
  rw [hchildren] at hds hne
  obtain ⟨ls, ds, rfl, hls, hds⟩ := PairedLists.exists_append hds
  obtain ⟨bs, rs, rfl, hbs, hrs⟩ := PairedLists.exists_append hds
  obtain ⟨ls', us, rfl, hls', hus⟩ := PairedLists.exists_append hus.flip
  obtain ⟨bs', rs', rfl, hbs', hrs'⟩ := PairedLists.exists_append hus
  simp only [isSettled, Bool.and_eq_true, List.all_append, List.all_eq_true] at hsettled
  obtain ⟨⟨hleft, hright⟩, hbase⟩ := hsettled
  have hls_beq : Equal ls left := hls.imp fun _ _ h => h.beq
  have hrs_beq : Equal rs right := hrs.imp fun _ _ h => h.beq
  have hls_item := hls_beq.forall_mem isItem_congr hleft
  have hrs_item := hrs_beq.forall_mem isItem_congr hright
  obtain rfl := eq_of_passed_items hn hls_item hls'.flip
  obtain rfl := eq_of_passed_items hn hrs_item hrs'.flip
  rw [rebuild_eq hn hls.length_eq (hbs'.length_eq.trans hbs.length_eq),
    foldlM_addPart_items hls_item rfl, pure_bind, foldl_addItem rfl, List.nil_append]
  have halike {qs : List Term} (hqs : Equal qs base) :
      Node.Alike (fun a b => a == b) (.list ops ls' qs rs') t.node := by
    rw [hn]
    exact .list hls_beq hqs hrs_beq
  split at hbase
  · rename_i hnil
    obtain rfl := List.isEmpty_iff.mp hnil
    cases hbs
    cases hbs'
    rw [Bool.and_eq_true] at hbase
    obtain rfl := List.isEmpty_iff.mp hbase.1
    cases hrs
    cases hrs'
    have hmany (hop : ops.isOperator) : 1 < ls'.length := by
      rw [hls.length_eq]
      exact length_of_not_isLone hn hlone (by simpa using hne) hop
    simp only [List.foldlM_nil, pure_bind, List.append_nil, build_eq hmany]
    exact Term.gives_rebuilt_new rfl (halike .nil) (List.append_nil ls') k
  · rename_i hsome
    simp only [Bool.and_eq_true, Bool.not_eq_true', List.all_eq_true] at hbase
    obtain ⟨⟨hapart, hmany⟩, hparts⟩ := hbase
    have hbase_ne : base ≠ [] := by simpa using hsome
    have hadmits := admits_of_isSettled hparts hruns
    have hheld : Holding k k { ops, left := ls' } [] := .parts rfl .nil
    refine (gives_concatAll hn base hapart hbase_ne hadmits hbs hbs'.flip rfl hheld (Nat.le_refl k)).bind
      fun k' q hk hq => ?_
    obtain ⟨qops, qleft, qbase, qright⟩ := q
    obtain ⟨hqops, hqleft, hqright, hqbase⟩ := hq
    dsimp only at hqops hqleft hqright hqbase
    subst hqops hqleft hqright
    rw [List.nil_append] at hqbase
    have hequal : Equal qbase base :=
      (Term.equal_of_redone hqbase).trans (hbs.imp fun _ _ h => h.beq)
    have hqne : qbase ≠ [] := fun h => hbase_ne (List.eq_nil_of_length_eq_zero (by
      rw [← hequal.length_eq, h, List.length_nil]))
    rw [foldlM_addPart_items hrs_item rfl, pure_bind, foldl_addItem_right hqne, List.nil_append]
    rw [build_of_base hqne (by
      rw [hls_beq.length_eq, hequal.length_eq, hrs_beq.length_eq]
      simpa [and_assoc] using hmany)]
    exact Term.gives_rebuilt rfl (halike hequal) rfl
      (List.rel_append (Term.redone_refl _) (List.rel_append hqbase (Term.redone_refl _))) hk

end ListParts

end RuleCompiler
