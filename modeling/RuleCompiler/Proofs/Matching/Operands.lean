import RuleCompiler.Proofs.Builder.Operands
import RuleCompiler.Proofs.Matching.Bounds
import RuleCompiler.Proofs.Matching.LeftSide

/-! # Matching against operands

The list of no operands is the unit and that of a single one is the operand. A pattern finds in it what it
finds in the operands as they were put together, as long as a single operand is no list itself: the list of
another collection is never read as an operand. -/

namespace RuleCompiler

open MonadAttach (CanReturn)

/-! ### Patterns of user operators -/

namespace ListParts

/-- Whether the parts are as builders leave those of a user operator: several items, or unknown parts, which
are variables, the first one too, with runs of items among them. -/
def isBuilt (p : ListParts) : Bool :=
  if p.base.isEmpty then p.right.isEmpty && decide (1 < p.left.length)
  else p.base.head?.all Term.isVar && p.base.all fun b => b.isVar || isRun p.ops b

/-- Whether the term, if it is a list of `ops`, is one as builders leave it. -/
def IsBuiltList (ops : CollectionOps) (t : Term) : Prop :=
  ∀ left base right, t.node = .list ops left base right → isBuilt { ops, left, base, right }

/-- How the parts of a list that is being put together stand to each other. -/
structure IsOpening (o : CollectionOps) (p : ListParts) : Prop where
  ops : p.ops = o
  known : p.base = [] → p.right = []
  first : ∀ b ∈ p.base.head?, b.isVar
  unknown : ∀ b ∈ p.base, b.isVar ∨ isRun o b

/-- What holds of the parts after each operand. -/
structure IsAssembled (o : CollectionOps) (p : ListParts) : Prop extends IsOpening o p where
  single : p.base = [] → ∀ t, p.left = [t] → t.isListOf o = false

variable {o : CollectionOps} {p : ListParts} {t : Term}

theorem isBuilt_iff : p.isBuilt ↔ (p.base = [] → p.right = [] ∧ 1 < p.left.length) ∧
    (∀ b ∈ p.base.head?, b.isVar) ∧ ∀ b ∈ p.base, b.isVar ∨ isRun p.ops b := by
  unfold isBuilt
  cases hbase : p.base with
  | nil => simp
  | cons b bases => simp

theorem IsOpening.addItems (h : p.IsOpening o) (ts : List Term) :
    (ts.foldl addItem p).IsOpening o ∧ (ts.foldl addItem p).base = p.base := by
  by_cases hbase : p.base = []
  · rw [foldl_addItem hbase]
    exact ⟨⟨h.ops, h.known, h.first, h.unknown⟩, rfl⟩
  · rw [foldl_addItem_right hbase]
    exact ⟨⟨h.ops, fun hnil => absurd hnil hbase, h.first, h.unknown⟩, rfl⟩

theorem IsAssembled.addItem (h : p.IsAssembled o) (ht : t.isListOf o = false) : (p.addItem t).IsAssembled o := by
  have hitem := (h.addItems [t]).1
  refine { hitem with single := fun hbase u hu => ?_ }
  have hnil : p.base = [] := (h.addItems [t]).2.symm.trans hbase
  rw [ListParts.addItem, hnil] at hu
  have hmem : t ∈ [u] := hu ▸ List.mem_append_right p.left List.mem_cons_self
  exact List.mem_singleton.mp hmem ▸ ht

/-- More unknown parts, which start with a variable if there are none yet. -/
theorem IsOpening.extend (h : p.IsOpening o) {base right : List Term} (hbase : base ≠ [])
    (hfirst : p.base = [] → ∀ b ∈ base.head?, b.isVar) (hunknown : ∀ b ∈ base, b.isVar ∨ isRun o b) :
    IsAssembled o { p with base := p.base ++ base, right } where
  ops := h.ops
  known hnil := absurd (List.append_eq_nil_iff.mp hnil).2 hbase
  single hnil := absurd (List.append_eq_nil_iff.mp hnil).2 hbase
  first b hb := by
    cases hp : p.base with
    | nil => exact hfirst hp b (by simpa [hp] using hb)
    | cons c cs => exact h.first b (by simpa [hp] using hb)
  unknown b hb := (List.mem_append.mp hb).elim (h.unknown b) (hunknown b)

/-- Items after unknown parts become a run. -/
theorem IsOpening.closeRight (h : p.IsOpening o) : Returns (fun q => q.IsOpening o ∧ q.right = []) p.closeRight := by
  unfold ListParts.closeRight
  split
  · rename_i hright
    exact .pure ⟨h, List.isEmpty_iff.mp hright⟩
  · rename_i hright
    have hbase : p.base ≠ [] := fun hnil => hright (List.isEmpty_iff.mpr (h.known hnil))
    refine (Term.returns_new _).bind fun run hrun => .pure ⟨IsAssembled.toIsOpening ?_, rfl⟩
    refine h.extend (List.cons_ne_nil _ _) (fun hnil => absurd hnil hbase) fun b hb => .inr ?_
    obtain ⟨c, cs, hc⟩ := List.exists_cons_of_ne_nil (List.isEmpty_eq_false_iff.mp (Bool.eq_false_iff.mpr hright))
    rw [List.mem_singleton.mp hb, isRun, hrun, hc]
    exact decide_eq_true h.ops

theorem IsAssembled.addOperand (h : p.IsAssembled o) (hop : o.isOperator) (ht : t.isListOf o = false) :
    Returns (IsAssembled o) (p.addOperand t) := by
  unfold ListParts.addOperand
  split
  · rename_i hunresolved
    have hvar : t.isVar := by
      rw [isUnresolved, h.ops, hop] at hunresolved
      simp only [Bool.not_true, Bool.false_or, Bool.and_eq_true] at hunresolved
      exact hunresolved.1
    refine h.closeRight.bind fun q hq => .pure ?_
    refine hq.1.extend (List.cons_ne_nil _ _) (fun _ b hb => ?_) fun b hb => .inl ?_
    · cases hb
      exact hvar
    · exact List.mem_singleton.mp hb ▸ hvar
  · exact .pure (h.addItem ht)

theorem IsAssembled.concat (h : p.IsAssembled o) (hop : o.isOperator) (ht : IsBuiltList o t) :
    Returns (IsAssembled o) (p.concat t) := by
  unfold ListParts.concat
  split
  · rename_i ops left base right hn
    split
    · rename_i hops
      obtain rfl : ops = o := hops.trans h.ops
      obtain ⟨hknown, hfirst, hunknown⟩ := isBuilt_iff.mp (ht left base right hn)
      obtain ⟨hitems, hbase⟩ := h.addItems left
      dsimp only
      split
      · rename_i hnil
        refine .pure { hitems with single := fun hp u hu => ?_ }
        -- a list has several items, so that none of them is left alone
        have hlong : 1 < left.length := (hknown (List.isEmpty_iff.mp hnil)).2
        rw [hbase] at hp
        rw [foldl_addItem hp] at hu
        have hlength := congrArg List.length hu
        simp only [List.length_append, List.length_singleton] at hlength
        omega
      · rename_i hne
        refine hitems.closeRight.bind fun q hq => .pure ?_
        exact hq.1.extend (fun hnil => hne (List.isEmpty_iff.mpr hnil)) (fun _ => hfirst) hunknown
    · rename_i hne
      refine h.addOperand hop ?_
      rw [Term.isListOf, hn, decide_eq_false_iff_not]
      exact fun heq => hne (heq.trans h.ops.symm)
  · rename_i hno
    have hlist : t.isListOf o = false := by
      unfold Term.isListOf
      split
      · exact absurd ‹_› (hno _ _ _ _)
      · rfl
    exact .ite (fun _ => .pure h) fun _ => h.addOperand hop hlist

/-- Builders leave the lists of user operators in this form. -/
theorem isBuiltList_build (hop : o.isOperator) {qs : List Term} (hqs : ∀ q ∈ qs, IsBuiltList o q) :
    Returns (IsBuiltList o) (do (← qs.foldlM ListParts.concat { ops := o }).build) := by
  have hempty : IsAssembled o { ops := o } :=
    ⟨⟨rfl, fun _ => rfl, by simp, List.forall_mem_nil _⟩, by simp⟩
  refine (Returns.foldlM hempty fun p hp q hq => hp.concat hop (hqs q hq)).bind fun p hp => ?_
  obtain ⟨ops, left, base, right⟩ := p
  obtain ⟨⟨rfl, hknown, hfirst, hunknown⟩, hsingle⟩ := hp
  dsimp only at hknown hfirst hunknown hsingle hop
  unfold build
  dsimp only
  split
  · rename_i b
    obtain ⟨v, hv⟩ := Term.exists_var (hfirst b rfl)
    exact .pure fun _ _ _ hn => by cases hv.symm.trans hn
  · refine .ite (fun _ => .pure fun _ _ _ hn => by cases hn) fun hno => absurd hop hno
  · rename_i u
    refine .ite (fun _ => .pure fun _ _ _ hn => ?_) fun hno => absurd hop hno
    have hlist := hsingle rfl u rfl
    rw [Term.isListOf, hn] at hlist
    simp at hlist
  · rename_i hnone hone _
    refine (Term.returns_new _).mono fun u hu left' base' right' hn => ?_
    cases hu.symm.trans hn
    refine isBuilt_iff.mpr ⟨fun hbase => ⟨hknown hbase, ?_⟩, hfirst, hunknown⟩
    dsimp only at hbase ⊢
    rcases left with _ | ⟨u, _ | ⟨w, left⟩⟩
    · exact absurd hbase (hnone rfl)
    · exact absurd hbase (hone u rfl)
    · simp

end ListParts

namespace Matching
open ListParts (isBuilt)

/-- Match unknown parts against operands: a variable takes the list of any number of them, the last part all
that are left, and a run as many as it has items. -/
def matchMiddle (ops : CollectionOps) : List Term → List Term → MatchState → Build (List MatchState)
  | [], ts, st => return if ts.isEmpty then [st] else []
  | b :: bases, ts, st => match b.node with
    | .var v => (if bases.isEmpty then [(ts, [])] else splits ts).flatMapM fun (front, back) => do
        (bind v (← listOf ops front) st).flatMapM (matchMiddle ops bases back)
    | .list _ run _ _ => do
        if ts.length < run.length then return []
        (← pairs matchFrom (run.zip ts) [st]).flatMapM (matchMiddle ops bases (ts.drop run.length))
    | _ => return []

/-- Match a list pattern against operands: the items at both ends one by one, then what is between them. -/
def matchOperands (p : ListParts) (ts : List Term) (st : MatchState) : Build (List MatchState) := do
  let ends := p.left.length + p.right.length
  if ts.length < ends || p.base.isEmpty && ts.length != ends then return []
  let (front, others) := ts.splitAt p.left.length
  let (middle, back) := others.splitAt (others.length - p.right.length)
  (← pairs matchFrom (p.left.zip front ++ p.right.zip back) [st]).flatMapM (matchMiddle p.ops p.base middle)

variable {ops : CollectionOps} {p : ListParts} {t : Term} {ts : List Term}

/-- Parts are matched as they are on their own. -/
theorem upTo_eq_matchFrom {n k : Nat} {q : Term} (hq : q.size ≤ k) (ht : t.size ≤ n + 1) (st : MatchState) :
    upTo (below n) k q t st = matchFrom q t st := by
  rw [← below_eq_matchFrom q ht]
  exact upTo_agree rfl hq (Nat.le_refl _) t trivial st

theorem pairs_eq_matchFrom {n k : Nat} {es : List (Term × Term)} (h : ∀ e ∈ es, e.1.size ≤ k ∧ e.2.size ≤ n + 1)
    (states : List MatchState) : pairs (upTo (below n) k) es states = pairs matchFrom es states :=
  pairs_congr (List.forall₂_same.mpr fun e he => ⟨rfl, upTo_eq_matchFrom (h e he).1 (h e he).2⟩) states

theorem upTo_var {deeper : Matcher} {k : Nat} {b : Term} {v : Var} (hn : b.node = .var v) (hk : b.size ≤ k)
    (chunk : Term) (st : MatchState) : upTo deeper k b chunk st = pure (bind v chunk st) := by
  obtain ⟨k, rfl⟩ := Nat.exists_eq_add_of_le' (Nat.le_trans b.size_pos hk)
  have hground : ¬b.isGround := fun h => Term.not_isVar_of_isGround h hn
  rw [upTo, node_var hground hn]

theorem listMiddle_eq_matchMiddle {n k : Nat} {bases : List Term} (hk : ∀ b ∈ bases, b.size ≤ k)
    (hbases : ∀ b ∈ bases, b.isVar ∨ ListParts.isRun ops b) : ∀ {ts : List Term}, (∀ t ∈ ts, t.size ≤ n + 1) →
      ∀ st, listMiddle (upTo (below n) k) ops bases ts st = matchMiddle ops bases ts st := by
  induction bases with
  | nil => exact fun _ _ => rfl
  | cons b bases ih =>
    intro ts hts st
    obtain ⟨hb, hk⟩ := List.forall_mem_cons.mp hk
    obtain ⟨hpart, hbases⟩ := List.forall_mem_cons.mp hbases
    have hrest {us : List Term} (hus : us ⊆ ts) (st : MatchState) :=
      ih hk hbases (fun t ht => hts t (hus ht)) st
    rcases hpart with hvar | hrun
    · obtain ⟨v, hn⟩ := Term.exists_var hvar
      rw [listMiddle_part (by rintro _ _ _ _ h; cases hn.symm.trans h), matchMiddle, hn]
      refine flatMapM_congr fun e he => bind_congr fun chunk => ?_
      rw [upTo_var hn hb, pure_bind]
      refine flatMapM_congr fun st' _ => hrest (fun t ht => ?_) st'
      split at he
      · cases List.mem_singleton.mp he
        cases ht
      · have happend : e.1 ++ e.2 = ts := mem_splits he
        exact happend ▸ List.mem_append_right _ ht
    · obtain ⟨run, hn, -⟩ := ListParts.node_of_isRun hrun
      have hitems : ∀ q ∈ run, q.size ≤ k := by
        intro q hq
        refine Nat.le_trans (Nat.le_of_lt (Term.size_child ?_)) hb
        rw [Term.children, hn]
        exact List.mem_append_left _ hq
      rw [listMiddle, matchMiddle, hn]
      dsimp only
      rw [pairs_eq_matchFrom fun e he => ⟨hitems _ (List.of_mem_zip he).1, hts _ (List.of_mem_zip he).2⟩]
      by_cases hlen : run.length ≤ ts.length
      · rw [if_pos (by simpa using hlen), if_neg (Nat.not_lt.mpr hlen)]
        exact bind_congr fun sts => flatMapM_congr fun st' _ => hrest (List.drop_subset _ _) st'
      · rw [if_neg (by simpa using hlen), if_pos (Nat.lt_of_not_le hlen)]

/-- Known items are matched as operands. -/
theorem list_eq_matchOperands {n k : Nat} (hp : p.isBuilt) (hk : ∀ q ∈ p.left ++ (p.base ++ p.right), q.size ≤ k)
    (hts : ∀ t ∈ ts, t.size ≤ n + 1) (st : MatchState) :
    list (upTo (below n) k) p { ops := p.ops, left := ts } st = matchOperands p ts st := by
  simp only [List.forall_mem_append] at hk
  obtain ⟨hl, hb, hr⟩ := hk
  unfold list matchOperands
  simp only [List.isEmpty_nil, Bool.not_true, Bool.false_eq_true, if_false, List.splitAt_eq]
  rw [bne_comm]
  refine if_ctx_congr Iff.rfl (fun _ => rfl) fun hends => ?_
  simp only [Bool.or_eq_true, decide_eq_true_eq, not_or, Nat.not_lt] at hends
  have hmiddle : ts.length - p.right.length - p.left.length = (ts.drop p.left.length).length - p.right.length := by
    rw [List.length_drop]
    omega
  have hback : (ts.drop p.left.length).drop ((ts.drop p.left.length).length - p.right.length) =
      ts.drop (ts.length - p.right.length) := by
    rw [List.drop_drop, List.length_drop]
    congr 1
    omega
  have hfront : p.left.zip (ts.take p.left.length) = p.left.zip ts := by
    have hmin : min p.left.length ts.length = p.left.length := by omega
    conv_rhs => rw [List.zip_eq_zip_take_min, hmin, List.take_length]
  rw [hmiddle, hback, hfront, pairs_eq_matchFrom]
  · refine bind_congr fun sts => flatMapM_congr fun st' _ => ?_
    refine listMiddle_eq_matchMiddle hb ((ListParts.isBuilt_iff.mp hp).2.2) (fun t ht => hts t ?_) st'
    exact List.mem_of_mem_drop (List.mem_of_mem_take ht)
  · intro e he
    rcases List.mem_append.mp he with he | he
    · exact ⟨hl _ (List.of_mem_zip he).1, hts _ (List.of_mem_zip he).2⟩
    · exact ⟨hr _ (List.of_mem_zip he).1, hts _ (List.mem_of_mem_drop (List.of_mem_zip he).2)⟩

/-! ### Lists of operands -/

/-- A ground operand that builders leave as it is. -/
def IsOperand (ops : CollectionOps) (t : Term) : Prop := t.isGround ∧ ListParts.isPart ops t

/-- The list of no operands is the unit, that of one is the operand. -/
theorem built_cases {s : Term} (hop : ops.isOperator) (hts : ∀ t ∈ ts, IsOperand ops t)
    (hs : CanReturn (do (← ts.foldlM ListParts.concat { ops }).build) s) :
    ts = [] ∧ s = ops.unitTerm ∨ ts = [s] ∨ 1 < ts.length ∧ s.node = .list ops ts [] [] := by
  have hknown : ∀ t ∈ ts, ListParts.Known ops t := by
    intro t ht
    obtain ⟨hground, hpart⟩ := hts t ht
    rw [ListParts.isPart, Bool.and_eq_true, Bool.not_eq_true'] at hpart
    exact .operand hop hground hpart.1
  have hitems : ts.flatMap (Term.itemsOf ops) = ts := by
    rw [List.flatMap_congr (g := fun t => [t]) fun t ht => ListParts.itemsOf_of_isPart (hts t ht).2,
      List.flatMap_singleton']
  rw [ListParts.foldlM_concat_known rfl hknown, pure_bind, List.nil_append, hitems] at hs
  have hpure {a : Term} (h : ListParts.build { ops, left := ts } = pure a) : s = a := by
    rw [h] at hs
    exact (Returns.pure rfl : Returns (fun s => s = a) (pure a)) s hs
  rcases ts with _ | ⟨t, _ | ⟨_, _⟩⟩
  · exact .inl ⟨rfl, hpure (if_pos hop)⟩
  · exact .inr (.inl (congrArg (fun t => [t]) (hpure (if_pos hop)).symm))
  · rw [ListParts.build_eq fun _ => by simp] at hs
    exact .inr (.inr ⟨by simp, Term.returns_new _ s hs⟩)

/-- Operands are read as they were put together, a single one that is a list apart. -/
theorem listView_built {s : Term} (hop : ops.isOperator) (hts : ∀ t ∈ ts, IsOperand ops t)
    (hone : ∀ t, ts = [t] → t.isList = false)
    (hs : CanReturn (do (← ts.foldlM ListParts.concat { ops }).build) s) :
    listView? ops s = some { ops, left := ts } := by
  rcases built_cases hop hts hs with ⟨rfl, rfl⟩ | rfl | ⟨-, hn⟩
  · simp [listView?, operandsOf?, hop, CollectionOps.unitTerm, Term.constant, Term.canonical, CollectionOps.isUnit]
  · obtain ⟨hground, hpart⟩ := hts s List.mem_cons_self
    have hlist := hone s rfl
    rw [ListParts.isPart, Bool.and_eq_true, Bool.not_eq_true', Bool.not_eq_true'] at hpart
    unfold listView?
    split
    · simp_all [Term.isList]
    · unfold operandsOf?
      simp only [hop, Bool.not_true, Bool.false_eq_true, if_false]
      split
      · simp_all [Term.isList]
      · exact absurd ‹_› (Term.not_isVar_of_isGround hground)
      · rw [hpart.2]
        rfl
  · rw [listView?, hn]

/-- A list of several items is equal to the list of some operands if the items are. -/
theorem beq_built {q s : Term} {left : List Term} (hop : ops.isOperator) (hts : ∀ t ∈ ts, IsOperand ops t)
    (hq : q.node = .list ops left [] []) (hleft : 1 < left.length)
    (hs : CanReturn (do (← ts.foldlM ListParts.concat { ops }).build) s) : (q == s) = (left == ts) := by
  have hlength (h : left == ts) : 1 < ts.length := (Term.equal_iff_beq.mpr h).length_eq ▸ hleft
  have hother (h : s.isListOf ops = false) : (q == s) = false := by
    refine Bool.eq_false_iff.mpr fun hbeq => ?_
    have hlist : q.isListOf ops = s.isListOf ops := ListParts.isListOf_congr hbeq
    rw [h, Term.isListOf, hq] at hlist
    simp at hlist
  rcases built_cases hop hts hs with ⟨rfl, rfl⟩ | rfl | ⟨-, hn⟩
  · rw [hother rfl, Bool.eq_false_iff.mpr fun h => absurd (hlength h) (by simp)]
  · have hpart := (hts s List.mem_cons_self).2
    rw [ListParts.isPart, Bool.and_eq_true, Bool.not_eq_true'] at hpart
    rw [hother hpart.1, Bool.eq_false_iff.mpr fun h => absurd (hlength h) (by simp)]
  · rw [Bool.eq_iff_iff, Term.beq_iff_alike hq hn, ← Term.equal_iff_beq]
    constructor
    · intro h
      cases h with
      | list h => exact h
    · exact fun h => .list h .nil .nil

/-- Ground items that are compared one by one. -/
theorem matchOperands_compared (hright : p.right = []) (hbase : p.base = []) (hleft : ∀ q ∈ p.left, isCompared q)
    (ts : List Term) (st : MatchState) : matchOperands p ts st = pure (if p.left == ts then [st] else []) := by
  have hcompared {es : List (Term × Term)} (h : ∀ e ∈ es, isCompared e.1) :
      pairs matchFrom es [st] = pairs comparing es [st] := by
    refine pairs_congr (List.forall₂_same.mpr fun e he => ⟨rfl, fun st => ?_⟩) _
    obtain ⟨n, hn⟩ := Nat.exists_eq_add_of_le' e.2.size_pos
    rw [matchFrom, hn, below]
    exact congrFun (congrFun (upTo_comparing (h e he) (Nat.le_refl _)) e.2) st
  unfold matchOperands
  simp only [hright, hbase, List.length_nil, Nat.add_zero, List.isEmpty_nil, Bool.true_and, List.splitAt_eq,
    List.zip_nil_left, List.append_nil]
  by_cases hlen : ts.length = p.left.length
  · rw [if_neg (by simp [hlen]), hcompared fun e he => hleft _ (List.of_mem_zip he).1, ← hlen, List.take_length,
      pairs_comparing st hlen.symm, pure_bind, List.drop_length]
    split
    · rw [List.flatMapM_cons, List.flatMapM_nil, List.take_nil, matchMiddle]
      rfl
    · rfl
  · rw [if_pos (by simp [hlen]), if_neg fun h => hlen (Term.equal_iff_beq.mpr h).length_eq.symm]

/-- A pattern finds in a list what it finds in the operands that the list was made of, however many there
are. -/
theorem matchFrom_operands {q s : Term} (hop : p.ops.isOperator)
    (hq : q.node = .list p.ops p.left p.base p.right) (hp : p.isBuilt) (hts : ∀ t ∈ ts, IsOperand p.ops t)
    (hone : ∀ t, ts = [t] → t.isList = false)
    (hs : CanReturn (do (← ts.foldlM ListParts.concat { ops := p.ops }).build) s) (st : MatchState) :
    matchFrom q s st = matchOperands p ts st := by
  have hview := listView_built hop hts hone hs
  have hchildren : q.children = p.left ++ (p.base ++ p.right) := by rw [Term.children, hq]; rfl
  obtain ⟨n, hn⟩ := Nat.exists_eq_add_of_le' s.size_pos
  obtain ⟨k, hk⟩ := Nat.exists_eq_add_of_le' q.size_pos
  have hlevel : matchFrom q s st = node (upTo (below n) k) (below n) q s st := by
    rw [matchFrom, hn, below]
    dsimp only
    rw [hk, upTo]
  rw [hlevel]
  cases hcompared : isCompared q with
  | true =>
    -- nothing is unknown in a ground pattern
    obtain ⟨hknown, hfirst, -⟩ := ListParts.isBuilt_iff.mp hp
    have hbase : p.base = [] := by
      refine List.eq_nil_iff_forall_not_mem.mpr fun b hb => ?_
      obtain ⟨c, cs, hc⟩ := List.exists_cons_of_ne_nil (List.ne_nil_of_mem hb)
      obtain ⟨v, hv⟩ := Term.exists_var (hfirst c (by rw [hc]; rfl))
      have hmem : c ∈ q.children := by simp [hchildren, hc]
      exact Term.not_isVar_of_isGround (Term.isGround_child (isGround_of_isCompared hcompared) hmem) hv
    obtain ⟨hright, hleft⟩ := hknown hbase
    have hitems : ∀ c ∈ p.left, isCompared c := fun c hc =>
      isCompared_child hcompared (hchildren ▸ List.mem_append_left _ hc)
    rw [hbase, hright] at hq
    rw [node_compares hcompared, matchOperands_compared hright hbase hitems, beq_built hop hts hq hleft hs]
  | false =>
    have hk : ∀ c ∈ p.left ++ (p.base ++ p.right), c.size ≤ k := by
      intro c hc
      have := Term.size_child (hchildren ▸ hc)
      omega
    have hts : ∀ t ∈ ts, t.size ≤ n + 1 := by
      intro t ht
      refine listView?_all (S := fun c => c.size ≤ n + 1) (fun c hc => ?_) (Nat.le_of_eq hn) hview t
        (List.mem_append_left _ ht)
      have := Term.size_child hc
      omega
    unfold node
    rw [isCompared] at hcompared
    rw [if_neg (by rw [hcompared]; exact Bool.false_ne_true), hq]
    dsimp only
    split
    · rename_i hparts
      cases hview.symm.trans hparts
      exact (if_pos rfl).trans (list_eq_matchOperands hp hk hts st)
    · rename_i hnone
      cases hview.symm.trans hnone

theorem exists_list {t : Term} (h : t.isList) : ∃ ops left base right, t.node = .list ops left base right := by
  unfold Term.isList at h
  split at h
  · exact ⟨_, _, _, _, ‹_›⟩
  · cases h

/-- The list of another collection is never read as an operand. -/
theorem matchFrom_otherList {q s : Term} (hq : q.node = .list p.ops p.left p.base p.right) (hs : s.isList)
    (hother : s.isListOf p.ops = false) (st : MatchState) : matchFrom q s st = pure [] := by
  obtain ⟨n, hn⟩ := Nat.exists_eq_add_of_le' s.size_pos
  obtain ⟨k, hk⟩ := Nat.exists_eq_add_of_le' q.size_pos
  rw [matchFrom, hn, below]
  dsimp only
  rw [hk, upTo]
  cases hcompared : isCompared q with
  | true =>
    have hne : (q == s) = false := by
      refine Bool.eq_false_iff.mpr fun hbeq => ?_
      have hlist : q.isListOf p.ops = s.isListOf p.ops := ListParts.isListOf_congr hbeq
      rw [hother, Term.isListOf, hq] at hlist
      simp at hlist
    rw [node_compares hcompared, hne]
    rfl
  | false =>
    unfold node
    rw [isCompared] at hcompared
    rw [if_neg (by rw [hcompared]; exact Bool.false_ne_true), hq]
    dsimp only
    obtain ⟨ops, left, base, right, hn⟩ := exists_list hs
    rw [Term.isListOf, hn, decide_eq_false_iff_not] at hother
    rw [hn]
    exact if_neg hother

/-- Matches of a list are those of the operands that it was made of, except that a single operand that is a
list itself is none. -/
theorem matchAll_operands {q s : Term} (hop : p.ops.isOperator)
    (hq : q.node = .list p.ops p.left p.base p.right) (hp : p.isBuilt) (hts : ∀ t ∈ ts, IsOperand p.ops t)
    (hs : CanReturn (do (← ts.foldlM ListParts.concat { ops := p.ops }).build) s) :
    matchAll q s = if ts.length = 1 ∧ ts.all Term.isList then return [] else do
      return (← matchOperands p ts {}).map (·.substitution) := by
  rw [matchAll]
  split
  · rename_i hone
    obtain ⟨t, rfl⟩ := List.length_eq_one_iff.mp hone.1
    have hst : t = s := by
      rcases built_cases hop hts hs with ⟨h, -⟩ | h | ⟨h, -⟩
      · cases h
      · exact (List.cons.inj h).1
      · simp at h
    subst hst
    have hpart := (hts t List.mem_cons_self).2
    rw [ListParts.isPart, Bool.and_eq_true, Bool.not_eq_true'] at hpart
    rw [matchFrom_otherList hq (by simpa using hone.2) hpart.1]
    rfl
  · rename_i hone
    refine congrArg (· >>= _) (matchFrom_operands hop hq hp hts (fun t ht => ?_) hs {})
    rw [ht] at hone
    simpa using hone

/-! ### Statements -/

/-- Statements, one after the other. -/
def sequencing : CollectionOps := ⟨⟨"Stmts"⟩, "_;_", ".Stmts", none⟩

/-- A first statement and the rest. -/
def firstAndRest : ListParts where
  ops := sequencing
  left := [⟨⟨1, false⟩, .var ⟨"First", .kItem, 0⟩⟩]
  base := [⟨⟨2, false⟩, .var ⟨"Rest", ⟨"Stmts"⟩, 0⟩⟩]

theorem matchAll_firstAndRest :
    let q : Term := ⟨⟨3, false⟩, .list sequencing firstAndRest.left firstAndRest.base []⟩
    let a : Term := .constant "a"
    firstAndRest.isBuilt ∧ (∀ t ∈ [a], IsOperand sequencing t) ∧
      CanReturn (do (← [a].foldlM ListParts.concat { ops := sequencing }).build) a ∧
      matchAll q a = if [a].length = 1 ∧ [a].all Term.isList then return [] else do
        return (← matchOperands firstAndRest [a] {}).map (·.substitution) := by
  intro q a
  have hop : ∀ t ∈ [a], IsOperand sequencing t := List.forall_mem_singleton.mpr ⟨by decide, by decide⟩
  have hs : CanReturn (do (← [a].foldlM ListParts.concat { ops := sequencing }).build) a := ⟨1, 1, rfl⟩
  exact ⟨by decide, hop, hs, matchAll_operands rfl rfl (by decide) hop hs⟩

/-- A list of one item that is no statement but a list itself. -/
def listAsStatement : Term := ⟨⟨4, false⟩, .list .list [.constant "a"] [] []⟩

/-- As an operand among others the list is matched by the first statement, but not on its own. -/
theorem exists_operand_not_read : ∃ (q s : Term) (ts : List Term),
    q.node = .list firstAndRest.ops firstAndRest.left firstAndRest.base firstAndRest.right ∧
      firstAndRest.isBuilt ∧ (∀ t ∈ ts, IsOperand firstAndRest.ops t) ∧
      CanReturn (do (← ts.foldlM ListParts.concat { ops := firstAndRest.ops }).build) s ∧
      ((matchAll q s).result? 5).map List.length = some 0 ∧
      ((matchOperands firstAndRest ts {}).result? 5).map List.length = some 1 := by
  refine ⟨⟨⟨3, false⟩, .list sequencing firstAndRest.left firstAndRest.base []⟩, listAsStatement, [listAsStatement],
    rfl, by decide, List.forall_mem_singleton.mpr ⟨by decide, by decide⟩, ⟨5, 5, rfl⟩, ?_, ?_⟩
  · decide
  · decide

end Matching

end RuleCompiler
