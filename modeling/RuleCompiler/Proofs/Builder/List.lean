import RuleCompiler.Proofs.Builder.Ground

/-! # Lists of ground terms

A list of known items is made again from parts with the same items, a list with parts that are not
known yet from equal children. -/

namespace RuleCompiler

open Build (Always)

/-- The items that a term stands for in a list of `ops`. -/
def Term.itemsOf (ops : CollectionOps) (t : Term) : List Term :=
  match t.node with
  | .list ops' left _ _ => if ops' = ops then left else [t]
  | _ => if ops.isUnit t then [] else [t]

/-- Whether the term is a list of `ops`. -/
def Term.isListOf (ops : CollectionOps) (t : Term) : Bool :=
  match t.node with
  | .list ops' .. => ops' = ops
  | _ => false

theorem Term.itemsOf_of_list {ops : CollectionOps} {t : Term} {left base right : List Term}
    (hn : t.node = .list ops left base right) : t.itemsOf ops = left := by
  rw [itemsOf, hn]
  exact if_pos rfl

theorem Term.itemsOf_of_operand {ops : CollectionOps} {t : Term} (h : t.isListOf ops = false) :
    t.itemsOf ops = if ops.isUnit t then [] else [t] := by
  rw [itemsOf]
  split
  · rename_i hn
    rw [isListOf, hn, decide_eq_false_iff_not] at h
    rw [if_neg h, CollectionOps.isUnit, hn]
    rfl
  · rfl

namespace ListParts

/-- A term whose items in a list of `ops` are all known. -/
inductive Known (ops : CollectionOps) (t : Term) : Prop where
  | list {left right : List Term} (hn : t.node = .list ops left [] right)
  | operand (hop : ops.isOperator) (ht : t.isGround) (hlist : t.isListOf ops = false)

theorem addItem_ops (p : ListParts) (t : Term) : (p.addItem t).ops = p.ops := by
  unfold addItem
  split <;> rfl

theorem foldl_addItem {ts : List Term} :
    ∀ {p : ListParts}, p.base = [] → ts.foldl addItem p = { p with left := p.left ++ ts } := by
  induction ts with
  | nil =>
    intro p _
    rw [List.foldl_nil, List.append_nil]
  | cons t ts ih =>
    intro p hp
    have hadd : p.addItem t = { p with left := p.left ++ [t] } := by rw [addItem, hp]; rfl
    rw [List.foldl_cons, hadd, ih (p := { p with left := p.left ++ [t] }) hp, List.append_assoc]
    rfl

/-- Operands that are no lists are items, but for the unit. -/
theorem concat_operand {p : ListParts} {t : Term} (hop : p.ops.isOperator) (ht : t.isGround)
    (hlist : t.isListOf p.ops = false) :
    p.concat t = pure (if p.ops.isUnit t then p else p.addItem t) := by
  have hresolved : p.addOperand t = pure (p.addItem t) := by
    have hvar : t.isVar = false := (Term.isGround_iff.mp ht).1
    rw [addOperand, isUnresolved, hop, hvar]
    rfl
  unfold concat
  split
  · rename_i ops left base right hn
    have hne : ops ≠ p.ops := by
      rintro rfl
      rw [Term.isListOf, hn] at hlist
      simp at hlist
    have hunit : p.ops.isUnit t = false := by rw [CollectionOps.isUnit, hn]
    rw [if_neg hne, hresolved, hunit]
    rfl
  · rw [hresolved]
    split <;> rfl

theorem concat_known {p : ListParts} {t : Term} (hp : p.base = []) (h : Known p.ops t) :
    p.concat t = pure { p with left := p.left ++ t.itemsOf p.ops } := by
  cases h with
  | @list left right hn =>
    unfold concat
    rw [hn, Term.itemsOf_of_list hn]
    simp only [if_true, List.isEmpty_nil]
    rw [foldl_addItem hp]
  | operand hop ht hlist =>
    rw [concat_operand hop ht hlist, Term.itemsOf_of_operand hlist, addItem, hp]
    split
    · rw [List.append_nil, ← hp]
    · rfl

theorem foldlM_concat_known {ts : List Term} : ∀ {p : ListParts}, p.base = [] →
    (∀ t ∈ ts, Known p.ops t) →
      ts.foldlM concat p = pure { p with left := p.left ++ ts.flatMap (Term.itemsOf p.ops) } := by
  induction ts with
  | nil =>
    intro p _ _
    rw [List.foldlM_nil, List.flatMap_nil, List.append_nil]
  | cons t ts ih =>
    intro p hp h
    obtain ⟨ht, hts⟩ := List.forall_mem_cons.mp h
    rw [List.foldlM_cons, concat_known hp ht, pure_bind,
      ih (p := { p with left := p.left ++ t.itemsOf p.ops }) hp hts, List.flatMap_cons,
      List.append_assoc]

/-- Whether a list of `ops` leaves the operand as it is. -/
def isPart (ops : CollectionOps) (t : Term) : Bool := !t.isListOf ops && !ops.isUnit t

/-- Whether the term is a list of `ops` of some items and nothing unknown. -/
def isRun (ops : CollectionOps) (t : Term) : Bool :=
  match t.node with
  | .list ops' (_ :: _) [] [] => ops' = ops
  | _ => false

/-- Whether runs of known items stand only between parts that are not known yet. -/
def runsApart (ops : CollectionOps) : List Term → Bool
  | [] => true
  | [b] => isPart ops b
  | b :: c :: bs => isPart ops b &&
    if isRun ops c then !bs.isEmpty && runsApart ops bs else runsApart ops (c :: bs)

/-- Whether the parts are as builders leave those of ground terms: the operands of a user operator
are all known, and runs of known items are kept apart. -/
def isNormal (p : ListParts) : Bool :=
  if p.ops.isOperator then
    p.base.isEmpty && p.right.isEmpty && decide (1 < p.left.length) && p.left.all (isPart p.ops)
  else if p.base.isEmpty then p.right.isEmpty
  else runsApart p.ops p.base && !(p.left.isEmpty && p.base.length == 1 && p.right.isEmpty)

section Congruence
variable {ops : CollectionOps} {t u : Term}

theorem isListOf_congr (h : t == u) : t.isListOf ops = u.isListOf ops := by
  have h := Term.alike_of_beq h
  rw [Term.isListOf, Term.isListOf]
  generalize t.node = m, u.node = n at h
  cases h <;> rfl

theorem itemsOf_congr (h : t == u) : Term.Equal (t.itemsOf ops) (u.itemsOf ops) := by
  have hself : Term.Equal [t] [u] := .cons h .nil
  have halike := Term.alike_of_beq h
  have hunit : Term.Equal (if ops.isUnit t then [] else [t]) (if ops.isUnit u then [] else [u]) := by
    rw [CollectionOps.isUnit_congr h]
    split
    · exact .nil
    · exact hself
  rw [Term.itemsOf, Term.itemsOf]
  generalize t.node = m, u.node = n at halike
  cases halike with
  | list hl hb hr =>
    dsimp only
    split
    · exact hl
    · exact hself
  | _ => exact hunit

theorem Known.congr (h : t == u) (hu : Known ops u) : Known ops t := by
  cases hu with
  | list hn =>
    have halike := Term.alike_of_beq h
    rw [hn] at halike
    generalize hm : t.node = m at halike
    cases halike with
    | list hl hb hr =>
      cases hb
      exact .list hm
  | operand hop hground hlist =>
    exact .operand hop (by rwa [Term.isGround_congr h]) (by rwa [isListOf_congr h])

end Congruence

/-- Known items make a list, only a user operator needs more than one. -/
theorem build_eq {ops : CollectionOps} {ts : List Term} (h : ops.isOperator → 1 < ts.length) :
    build { ops, left := ts } = Term.new (.list ops ts [] []) := by
  cases hop : ops.isOperator with
  | true =>
    match ts, h hop with
    | _ :: _ :: _, _ => rfl
  | false => rcases ts with _ | ⟨t, _ | _⟩ <;> simp [build, hop]

/-- Equal items make the list that they are items of. -/
theorem always_build {ops : CollectionOps} {ts : List Term} {s : Term} (hs : Known ops s)
    (hn : ∀ left base right, s.node = .list ops left base right → isNormal { ops, left, base, right })
    (hunit : ops.isUnit s → ops.unitTerm == s) (h : Term.Equal ts (s.itemsOf ops)) :
    Always (build { ops, left := ts }) (· == s) := by
  cases hs with
  | @list left right hnode =>
    have hnormal := hn left [] right hnode
    rw [Term.itemsOf_of_list hnode] at h
    have hlen (hop : ops.isOperator) : 1 < ts.length := by
      rw [h.length_eq]
      simp_all [isNormal]
    obtain rfl : right = [] := by
      unfold isNormal at hnormal
      split at hnormal <;> simp_all
    rw [build_eq hlen]
    refine (Term.always_new _).mono fun t ht => Term.beq_of_alike ?_
    rw [ht, hnode]
    exact .list h .nil .nil
  | operand hop _ hlist =>
    rw [Term.itemsOf_of_operand hlist] at h
    split at h
    · rename_i hs
      cases h
      simp only [build, hop, if_true]
      exact .pure (hunit hs)
    · cases h with
      | cons ht h =>
        cases h
        simp only [build, hop, if_true]
        exact .pure ht

/-! #### Parts that are not known yet -/

theorem foldl_addItem_right {ts : List Term} :
    ∀ {p : ListParts}, p.base ≠ [] → ts.foldl addItem p = { p with right := p.right ++ ts } := by
  induction ts with
  | nil =>
    intro p _
    rw [List.foldl_nil, List.append_nil]
  | cons t ts ih =>
    intro p hp
    have hadd : p.addItem t = { p with right := p.right ++ [t] } := by
      rw [addItem, if_neg (by simpa using hp)]
    rw [List.foldl_cons, hadd, ih (p := { p with right := p.right ++ [t] }) hp, List.append_assoc]
    rfl

/-- The run that known items become when a part follows them. -/
def closed (ops : CollectionOps) (right : List Term) : List Term :=
  if right.isEmpty then [] else [.canonical (.list ops right [] [])]

/-- The parts are those of `p` but for the unknown ones, which are now `base`, the last of all. -/
structure Closed (p : ListParts) (base : List Term) (q : ListParts) : Prop where
  ops : q.ops = p.ops
  left : q.left = p.left
  right : q.right = []
  base : Term.Equal q.base base

theorem always_closeRight (p : ListParts) :
    Always p.closeRight (Closed p (p.base ++ closed p.ops p.right)) := by
  unfold closeRight closed
  split
  · rename_i h
    refine .pure ⟨rfl, rfl, List.isEmpty_iff.mp h, ?_⟩
    rw [List.append_nil]
    exact .refl _
  · refine (Term.always_new _).bind fun t ht => .pure ⟨rfl, rfl, rfl, ?_⟩
    refine .append (.refl _) (.cons (Term.beq_of_alike ?_) .nil)
    rw [ht]
    exact .list (Term.Equal.refl _) .nil .nil

theorem always_concat_part {p : ListParts} {t : Term} (hop : p.ops.isOperator = false)
    (ht : isPart p.ops t) :
    Always (p.concat t) (Closed p (p.base ++ closed p.ops p.right ++ [t])) := by
  rw [isPart, Bool.and_eq_true, Bool.not_eq_true', Bool.not_eq_true'] at ht
  have hadd : p.concat t = p.addBase t := by
    have hop' : p.addOperand t = p.addBase t := by rw [addOperand, isUnresolved, hop]; rfl
    unfold concat
    split
    · rename_i hn
      rw [Term.isListOf, hn, decide_eq_false_iff_not] at ht
      rw [if_neg ht.1, hop']
    · rw [ht.2, hop']
      rfl
  rw [hadd, addBase]
  refine (always_closeRight p).bind fun q hq => .pure ?_
  exact ⟨hq.ops, hq.left, hq.right, hq.base.append (.refl _)⟩

theorem isPart_congr {ops : CollectionOps} {t u : Term} (h : t == u) : isPart ops t = isPart ops u := by
  rw [isPart, isPart, isListOf_congr h, CollectionOps.isUnit_congr h]

theorem isUnresolved_congr {p q : ListParts} {t u : Term} (hops : p.ops = q.ops) (h : t == u) :
    p.isUnresolved t = q.isUnresolved u := by
  rw [isUnresolved, isUnresolved, hops, Term.isVar_congr h, Term.sort_congr h]

theorem isRun_congr {ops : CollectionOps} {t u : Term} (h : t == u) : isRun ops t = isRun ops u := by
  have h := Term.alike_of_beq h
  rw [isRun, isRun]
  generalize t.node = m, u.node = n at h
  cases h with
  | list hl hb hr => cases hl <;> cases hb <;> cases hr <;> rfl
  | _ => rfl

theorem node_of_isRun {ops : CollectionOps} {t : Term} (h : isRun ops t) :
    ∃ items : List Term, t.node = .list ops items [] [] ∧ items ≠ [] := by
  unfold isRun at h
  split at h
  · rename_i hn
    rw [decide_eq_true_eq] at h
    exact ⟨_, h ▸ hn, List.cons_ne_nil _ _⟩
  · cases h

/-- Unknown parts, with runs of items between them, are put together as they were. -/
theorem always_concatAll {ops : CollectionOps} (hop : ops.isOperator = false) (base : List Term) :
    ∀ {bs : List Term} {p : ListParts}, runsApart ops base → base ≠ [] → Term.Equal bs base →
      p.ops = ops → Always (bs.foldlM concat p) (Closed p (p.base ++ closed ops p.right ++ base)) := by
  have hstep {p : ListParts} {b b' : Term} (hp : p.ops = ops) (hb : isPart ops b) (h : b' == b) :
      Always (p.concat b') (Closed p (p.base ++ closed ops p.right ++ [b])) := by
    subst hp
    refine (always_concat_part hop (by rwa [isPart_congr h])).mono fun q hq => ?_
    exact ⟨hq.ops, hq.left, hq.right, hq.base.trans (.append (.refl _) (.cons h .nil))⟩
  induction base using runsApart.induct with
  | case1 => exact fun _ h => absurd rfl h
  | case2 b =>
    intro bs p hruns _ hbs hp
    obtain ⟨b', rfl, hb⟩ : ∃ b', bs = [b'] ∧ b' == b := by
      cases hbs with | cons h h' => cases h'; exact ⟨_, rfl, h⟩
    rw [List.foldlM_cons]
    refine (hstep hp hruns hb).bind fun q hq => ?_
    rw [List.foldlM_nil]
    exact .pure hq
  | case3 b c base ih ih' =>
    intro bs p hruns _ hbs hp
    rw [runsApart, Bool.and_eq_true] at hruns
    obtain ⟨hb, hruns⟩ := hruns
    cases hbs with
    | @cons b' _ bs _ hbb hbs =>
    rw [List.foldlM_cons]
    refine (hstep hp hb hbb).bind fun q hq => ?_
    -- whatever follows closes what is open to the right of `q`
    have hrest {r : ListParts} {base : List Term} (hr : Closed q (q.base ++ base) r) :
        Closed p (p.base ++ closed ops p.right ++ (b :: base)) r := by
      refine ⟨hr.ops.trans hq.ops, hr.left.trans hq.left, hr.right, hr.base.trans ?_⟩
      rw [List.append_cons]
      exact hq.base.append (.refl base)
    split at hruns
    · rename_i hc
      rw [Bool.and_eq_true, Bool.not_eq_true'] at hruns
      cases hbs with
      | @cons c' _ bs _ hcc hbs =>
      obtain ⟨items, hc', hitems⟩ := node_of_isRun (isRun_congr hcc ▸ hc)
      have hbase : q.base ≠ [] := by
        intro h
        have hlen := hq.base.length_eq
        simp [h] at hlen
      have hqops := hq.ops.trans hp
      have hconcat : q.concat c' = pure { q with right := items } := by
        unfold concat
        rw [hc']
        simp only [hqops, if_true, List.isEmpty_nil]
        rw [foldl_addItem_right hbase, hq.right, hqops]
        rfl
      rw [List.foldlM_cons, hconcat, pure_bind]
      have hafter := ih (p := { q with right := items }) hruns.2 (by simpa using hruns.1) hbs hqops
      refine hafter.mono fun r hr => hrest ⟨hr.ops, hr.left, hr.right, hr.base.trans ?_⟩
      rw [closed, if_neg (by simpa using hitems), List.append_assoc]
      refine .append (.refl _) (.cons (BEq.symm ?_) (Term.Equal.refl base))
      refine BEq.trans (BEq.symm hcc) (Term.beq_of_alike ?_)
      rw [hc']
      exact .list (Term.Equal.refl _) .nil .nil
    · refine (ih' hruns (List.cons_ne_nil _ _) hbs (hq.ops.trans hp)).mono fun r hr => hrest ?_
      rw [hq.right, closed, List.isEmpty_nil, if_pos rfl, List.append_nil] at hr
      exact hr

/-! #### Lists made again -/

/-- Put a child back in front of the unknown parts or behind them. -/
def addPart (ops : CollectionOps) (p : ListParts) (c : Term) : Build ListParts :=
  if ops.isOperator then p.concat c else return p.addItem c

theorem rebuild_eq {ops : CollectionOps} {t : Term} {left base right ls bs rs fs : List Term}
    (hn : t.node = .list ops left base right) (hl : ls.length = left.length)
    (hb : bs.length = base.length) : t.rebuild (ls ++ (bs ++ rs)) fs = (do
      let p ← ls.foldlM (addPart ops) { ops }
      let p ← bs.foldlM concat p
      (← rs.foldlM (addPart ops) p).build) := by
  unfold Term.rebuild
  rw [hn]
  simp only [List.splitAt_eq, ← hl, ← hb, List.take_left, List.drop_left]
  rfl

theorem foldlM_addPart {ops : CollectionOps} {ts : List Term}
    (h : ops.isOperator → ∀ t ∈ ts, t.isGround ∧ isPart ops t) :
    ∀ {p : ListParts}, p.ops = ops → ts.foldlM (addPart ops) p = pure (ts.foldl addItem p) := by
  induction ts with
  | nil => exact fun _ => rfl
  | cons t ts ih =>
    intro p hp
    have hadd : addPart ops p t = pure (p.addItem t) := by
      unfold addPart
      split
      · rename_i hop
        obtain ⟨hground, hpart⟩ := h hop t List.mem_cons_self
        rw [isPart, Bool.and_eq_true, Bool.not_eq_true', Bool.not_eq_true'] at hpart
        rw [concat_operand (hp ▸ hop) hground (hp ▸ hpart.1), hp, hpart.2]
        rfl
      · rfl
    have hops : (p.addItem t).ops = ops := (addItem_ops p t).trans hp
    rw [List.foldlM_cons, hadd, pure_bind, List.foldl_cons,
      ih (fun hop u hu => h hop u (List.mem_cons_of_mem t hu)) hops]

/-- A list of known items is made again from parts with the same items. -/
theorem always_rebuild_known {ops : CollectionOps} {t s : Term}
    {left base right ls bs rs fs : List Term} (hn : t.node = .list ops left base right)
    (hl : ls.length = left.length) (hb : bs.length = base.length)
    (hitems : ops.isOperator → ∀ c ∈ ls ++ rs, c.isGround ∧ isPart ops c)
    (hbs : ∀ b ∈ bs, Known ops b) (hs : Known ops s)
    (hnormal : ∀ left base right, s.node = .list ops left base right →
      isNormal { ops, left, base, right })
    (hunit : ops.isUnit s → ops.unitTerm == s)
    (h : Term.Equal (ls ++ (bs.flatMap (Term.itemsOf ops) ++ rs)) (s.itemsOf ops)) :
    Always (t.rebuild (ls ++ (bs ++ rs)) fs) (· == s) := by
  have hleft (hop : ops.isOperator) := (List.forall_mem_append.mp (hitems hop)).1
  have hright (hop : ops.isOperator) := (List.forall_mem_append.mp (hitems hop)).2
  rw [rebuild_eq hn hl hb, foldlM_addPart hleft rfl, pure_bind, foldl_addItem rfl,
    foldlM_concat_known rfl hbs, pure_bind, foldlM_addPart hright rfl, pure_bind, foldl_addItem rfl,
    List.nil_append, List.append_assoc]
  exact always_build hs hnormal hunit h

/-- A list with unknown parts is made again from equal children. -/
theorem always_rebuild_aligned {ops : CollectionOps} {t s : Term}
    {left base right left' base' right' ls bs rs fs : List Term}
    (hn : t.node = .list ops left base right) (hop : ops.isOperator = false)
    (hl : ls.length = left.length) (hb : bs.length = base.length)
    (hs : s.node = .list ops left' base' right')
    (hnormal : isNormal { ops, left := left', base := base', right := right' }) (hbase : base' ≠ [])
    (hls : Term.Equal ls left') (hbs : Term.Equal bs base') (hrs : Term.Equal rs right') :
    Always (t.rebuild (ls ++ (bs ++ rs)) fs) (· == s) := by
  have hno : ∀ ts : List Term, ops.isOperator → ∀ t ∈ ts, t.isGround ∧ isPart ops t := by
    intro _ h
    rw [hop] at h
    cases h
  simp only [isNormal, hop, Bool.false_eq_true, if_false, List.isEmpty_iff, hbase, Bool.and_eq_true,
    Bool.not_eq_true'] at hnormal
  obtain ⟨hruns, hmany⟩ := hnormal
  rw [rebuild_eq hn hl hb, foldlM_addPart (hno ls) rfl, pure_bind, foldl_addItem rfl,
    List.nil_append]
  refine (always_concatAll hop base' hruns hbase hbs rfl).bind fun q hq => ?_
  have hqbase : Term.Equal q.base base' := hq.base
  have hne : q.base ≠ [] := by
    intro h
    rw [h] at hqbase
    cases hqbase
    exact hbase rfl
  rw [foldlM_addPart (hno rs) hq.ops, pure_bind, foldl_addItem_right hne, hq.right, hq.ops, hq.left,
    List.nil_append]
  have hbuild : build { ops, left := ls, base := q.base, right := rs } =
      Term.new (.list ops ls q.base rs) := by
    unfold build
    split
    · rename_i hl hb hr
      dsimp only at hl hb hr
      rw [hl] at hls
      rw [hb] at hqbase
      rw [hr] at hrs
      cases hls
      cases hrs
      simp [← hqbase.length_eq] at hmany
    · exact absurd ‹_› hne
    · exact absurd ‹_› hne
    · rfl
  rw [hbuild]
  refine (Term.always_new _).mono fun u hu => Term.beq_of_alike ?_
  rw [hu, hs]
  exact .list hls hqbase hrs

end ListParts

end RuleCompiler
