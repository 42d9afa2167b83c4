import RuleCompiler.Proofs.Sharing.Apart

/-! # Copies where editable nodes are shared

A walk that takes terms apart keeps every editable node where it meets it for the first time and copies
it wherever it meets it again. A node is made again when one of its children becomes another one, so
a first occurrence stays the same node if everything editable in it is met for the first time as well. -/

namespace RuleCompiler.Term

open Build (Gives)

variable {t u c d : Term} {ts us cs ds : List Term} {s s' s₁ : List Nat} {N n m k start : Nat}

/-! ### The end of an update -/

/-- The node with `us` for children: the same node if they are the same ones. -/
def settle (t : Term) (start : Nat) (us : List Term) : Build Term := do
  let frames ← t.frames.mapM fun v => do
    let node ← var v
    return (node, node)
  if allSame t.children us && frames.all fun (old, new) => old.same new then return t
  let t' ← t.rebuild us (frames.map (·.2))
  return if t.isEditable then makeEditable start t' else t'

section Update
variable {M : Type → Type} [Monad M] [LawfulMonad M] [MonadLiftT Build M] [LawfulMonadLiftT Build M]

theorem liftM_mapM {α β : Type} (f : α → Build β) :
    ∀ l : List α, (liftM (l.mapM f) : M (List β)) = l.mapM fun a => liftM (f a)
  | [] => by rw [List.mapM_nil, List.mapM_nil, liftM_pure]
  | a :: l => by simp only [List.mapM_cons, liftM_bind, liftM_pure, liftM_mapM f l]

theorem update_pure_eq (t : Term) (f : Term → M Term) : t.update (t.children.map f) pure = (do
    let start ← (liftM Build.nextId : M Nat)
    let us ← t.children.mapM f
    liftM (t.settle start us)) := by
  have hframes : (t.frames.mapM fun v => do
      let node ← (liftM (var v) : M Term)
      return (node, ← (pure node : M Term))) =
      (liftM (t.frames.mapM fun v => do
        let node ← var v
        return (node, node)) : M (List (Term × Term))) := by
    rw [liftM_mapM]
    simp only [liftM_bind, liftM_pure, pure_bind]
  unfold update settle
  rw [List.mapM_map, hframes]
  simp only [liftM_bind]
  refine congrArg _ (funext fun start => congrArg _ (funext fun us => congrArg _ (funext fun es => ?_)))
  split <;> simp only [liftM_pure, liftM_bind]

end Update

/-! ### What a walk makes of a term -/

/-- A term is kept or made again: then it is passed on as it is, or as the item that it was the list of. -/
inductive Result (n k : Nat) (t : Term) : Term → Term → Prop where
  | kept : Result n k t t t
  | made {u : Term} (hu : Fresh n k u) : Result n k t u u
  | lone {ops : CollectionOps} {x d u : Term} (ht : t.node = .list ops [x] [] []) (hop : ops.isOperator)
      (hd : d.node = .list ops [u] [] []) (hu : Fresh n k u) : Result n k t d u

/-- What a walk makes of the terms of a list: each entry is a term taken apart, and how it is passed
on. -/
structure Walked (s : List Nat) (n k : Nat) (ts : List Term) (es : List (Term × Term)) : Prop where
  results : List.Forall₂ (fun t e => Result n k t e.1 e.2) ts es
  unshared : Unshared s n k ts (es.map (·.1))

namespace Result

theorem mono {n' k' : Nat} (h : Result n k t d u) (hn : n' ≤ n) (hk : k ≤ k') : Result n' k' t d u := by
  cases h with
  | kept => exact .kept
  | made hu => exact .made (hu.mono hn hk)
  | lone ht hop hd hu => exact .lone ht hop hd (hu.mono hn hk)

/-- What is passed on as the same node is the same node. -/
theorem eq_of_same (ht : t.isCanonical = false → t.mark.id < n) (h : Result n k t d u) (hsame : t.same u) :
    d = t ∧ u = t := by
  have hnot (hu : Fresh n k u) : False := by
    rw [same] at hsame
    split at hsame
    · rw [hu.isCanonical] at hsame
      cases hsame
    · rename_i hc
      simp only [Bool.and_eq_true, beq_iff_eq] at hsame
      have hlt := ht (by simpa using hc)
      have hle := hu.le
      omega
  cases h with
  | kept => exact ⟨rfl, rfl⟩
  | made hu => exact (hnot hu).elim
  | lone _ _ _ hu => exact (hnot hu).elim

/-- What is the same node is passed on as the same node. -/
theorem eq_of_eq (hheap : IsHeap N [t]) (hn : N ≤ n) (h : Result n k t d u) (hd : d = t) : u = t := by
  have hnot {v : Term} (hu : Fresh n k v) (hv : IsNode [t] v) : False := by
    have hlt := hheap.id_lt hv hu.isCanonical
    have hle := hu.le
    omega
  cases h with
  | kept => rfl
  | made _ => exact hd
  | lone ht hop hdn hu =>
    refine (hnot hu (isNode_single.mpr (.inr ?_))).elim
    rw [← hd, Term.children, hdn]
    exact isNode_of_mem List.mem_cons_self

end Result

namespace Walked
variable {e : Term × Term} {es : List (Term × Term)}

theorem nil (s : List Nat) (n k : Nat) : Walked s n k [] [] := ⟨.nil, .nil s n k⟩

theorem cons (hheap : IsHeap N (c :: cs)) (hn : N ≤ n) (hm : n ≤ m) (hk : m ≤ k)
    (h : Walked s n m [c] [e]) (h' : Walked s' m k cs es) (hs' : Meets s [c] s') :
    Walked s n k (c :: cs) (e :: es) := by
  refine ⟨?_, h.unshared.cons hheap hn hm hk h'.unshared hs'⟩
  refine .cons ((List.forall₂_cons.mp h.results).1.mono (Nat.le_refl n) hk) ?_
  exact h'.results.imp fun _ _ h => h.mono hm (Nat.le_refl k)

/-- Where the same nodes are passed on, the terms are the same. -/
theorem eq_of_allSame (hheap : IsHeap N ts) (hn : N ≤ n)
    (h : List.Forall₂ (fun t e => Result n k t e.1 e.2) ts es) (hsame : allSame ts (es.map (·.2))) : es.map (·.1) = ts ∧ es.map (·.2) = ts := by
  induction h with
  | nil => exact ⟨rfl, rfl⟩
  | @cons t e ts es he _ ih =>
    rw [allSame, List.map_cons, List.zip_cons_cons, List.all_cons, Bool.and_eq_true] at hsame
    obtain ⟨hd, hu⟩ := he.eq_of_same
      (fun hc => Nat.lt_of_lt_of_le (hheap.head.id_lt (isNode_single.mpr (.inl rfl)) hc) hn) hsame.1
    obtain ⟨hds, hus⟩ := ih hheap.tail hsame.2
    rw [List.map_cons, List.map_cons, hd, hu, hds, hus]
    exact ⟨rfl, rfl⟩

theorem eq_of_eq (hheap : IsHeap N ts) (hn : N ≤ n)
    (h : List.Forall₂ (fun t e => Result n k t e.1 e.2) ts es) (hds : es.map (·.1) = ts) : es.map (·.2) = ts := by
  induction h with
  | nil => rfl
  | @cons t e ts es he _ ih =>
    rw [List.map_cons, List.cons.injEq] at hds
    rw [List.map_cons, he.eq_of_eq hheap.head hn hds.1, ih hheap.tail hds.2]

end Walked

/-! ### Nodes -/

theorem isRun_of_isLone (ht : t.isSettled) (hc : c ∈ t.children) (hlone : c.isLone) :
    ∃ ops left base right, t.node = .list ops left base right ∧ ListParts.isRun ops c := by
  rw [isSettled, Bool.and_eq_true, List.all_eq_true] at ht
  have hc := ht.1 c hc
  rw [hlone, Bool.not_true, Bool.false_or] at hc
  split at hc
  · exact ⟨_, _, _, _, ‹_›, hc⟩
  · cases hc

/-- What has become of a child is what its builder is passed. -/
theorem passed_of_result (ht : t.isSettled) (hc : c ∈ t.children) (h : Result n k c d u) : Passed t d u := by
  cases h with
  | kept => exact .child
  | made _ => exact .child
  | @lone ops x _ _ hcn hop hd _ =>
    obtain ⟨ops', left, base, right, htn, hrun⟩ := isRun_of_isLone ht hc (by rw [isLone, hcn]; exact hop)
    rw [ListParts.isRun, hcn, decide_eq_true_eq] at hrun
    subst hrun
    exact .item htn hop hd

theorem makeEditable_isEditable (hstart : start ≤ n) (hu : Fresh n k u) : (makeEditable start u).isEditable := by
  rw [makeEditable, hu.isCanonical, if_pos]
  · rfl
  · simpa using Nat.le_trans hstart hu.le

theorem gives_frames (t : Term) (n : Nat) :
    Gives n (fun _ es => List.Forall₂ (fun v e => e.1 = e.2 ∧ e.2.node = .var v) t.frames es)
      (t.frames.mapM fun v => do
        let node ← var v
        return (node, node)) := by
  refine (Gives.mapM (S := Eq) (R := fun _ (e : Term × Term) v => e.1 = e.2 ∧ e.2.node = .var v) (fun _ h => h)
    (List.forall₂_same.mpr fun _ _ => rfl) ?_).mono fun _ es _ hes => hes.flip
  rintro v - _ rfl k -
  exact (gives_new (m := .var v) rfl k).bind fun _ u _ hu => .pure ⟨rfl, hu.2.2⟩

theorem gives_settle_same (t : Term) (start n : Nat) :
    Gives n (fun _ u => u = t) (t.settle start t.children) := by
  refine (gives_frames t n).bind fun k es _ hes => ?_
  have hsame : es.all fun e => e.1.same e.2 := by
    refine List.all_eq_true.mpr fun e he => ?_
    obtain ⟨v, -, heq, -⟩ := PairedLists.exists_mem hes.flip he
    rw [heq]
    exact same_self _
  rw [allSame_self, hsame]
  exact .pure rfl

/-- A node with a child that has become another one is made again, and editable as it was. -/
theorem gives_settle_made {P : Term → Prop} (hstart : start ≤ m) (hmoved : allSame t.children us = false)
    (hrebuild : ∀ k fs, m ≤ k → List.Forall₂ (fun v f => f.node = .var v) t.frames fs →
      Gives k (fun k' v => (Fresh k k' v ∧ v.isEditable = false) ∧
        ∀ u : Term, u.node = v.node → u.mark.id = v.mark.id → P u) (t.rebuild us fs)) :
    Gives m (fun k u => Fresh m k u ∧ u.isEditable = t.isEditable ∧ P u) (t.settle start us) := by
  refine (gives_frames t m).bind fun m' fs hm' hfs => ?_
  have hvars : List.Forall₂ (fun v f => f.node = .var v) t.frames (fs.map (·.2)) :=
    List.forall₂_map_right_iff.mpr (hfs.imp fun _ _ h => h.2)
  rw [if_neg (by rw [hmoved]; exact Bool.false_ne_true)]
  refine (hrebuild m' _ hm' hvars).bind fun k u hk hu => .pure ?_
  obtain ⟨⟨hfresh, hedit⟩, hP⟩ := hu
  generalize hu' : (if t.isEditable then makeEditable start u else u) = u'
  have hnode' : u'.node = u.node := by rw [← hu']; split; exacts [makeEditable_node start u, rfl]
  have hid : u'.mark.id = u.mark.id := by rw [← hu']; split; exacts [makeEditable_id start u, rfl]
  have hedit' : u'.isEditable = t.isEditable := by
    rw [← hu']
    split
    · rename_i h
      rw [h, makeEditable_isEditable (Nat.le_trans hstart hm') hfresh]
    · rename_i h
      rw [hedit, Bool.eq_false_iff.mpr h]
  obtain ⟨hc, hle, hlt⟩ := hfresh
  exact ⟨⟨by rw [isCanonical, hnode']; exact hc, hid ▸ Nat.le_trans hm' hle, hid ▸ hlt⟩, hedit',
    hP u' hnode' hid⟩

/-- The lone item of a list is kept, or it is passed on as what is made of it. -/
theorem Result.of_lone_item {ops : CollectionOps} {x : Term} (ht : t.isSettled) (htn : t.node = .list ops [x] [] [])
    (hop : ops.isOperator) (h : Result n k x d u) : (d = x ∧ u = x) ∨ (d = u ∧ Fresh n k u) := by
  cases h with
  | kept => exact .inl ⟨rfl, rfl⟩
  | made hu => exact .inr ⟨rfl, hu⟩
  | lone hxn hop' =>
    have hlone := (isItem_of_lone ht htn hop).2
    rw [isLone, hxn] at hlone
    cases hop'.symm.trans hlone

section Node
variable {es : List (Term × Term)} (hsettled : t.everyNode isSettled) (hheap : IsHeap N [t])
  (hN : N ≤ n) (hs₁ : MeetsTop s t s₁)
  (hes : Walked s₁ n m t.children es) (hmet : ¬IsFirst s [t] [0])
include hsettled hheap hN hs₁ hes hmet

/-- A list with a lone item is passed on as what its item has become. -/
theorem gives_settle_lone (hlone : t.isLone) (hedit : t.isEditable = false)
    (hmoved : allSame t.children (es.map (·.2)) = false) (start : Nat) :
    Gives m (fun k u => Fresh n k u ∧ ∃ d, Walked s n k [t] [(d, u)]) (t.settle start (es.map (·.2))) := by
  obtain ⟨hnode, hbelow, -⟩ := everyNode_iff.mp hsettled
  obtain ⟨ops, x, htn, hop⟩ := node_of_isLone hlone
  have hchildren : t.children = [x] := by rw [Term.children, htn]; rfl
  obtain ⟨hresults, hunshared⟩ := hes
  rw [hchildren] at hresults hunshared hmoved
  cases hresults with
  | @cons _ e _ es hresult hresults =>
  cases hresults
  obtain ⟨d, u⟩ := e
  obtain ⟨hitem, -⟩ := isItem_of_lone hnode htn hop
  have hfresh : d = u ∧ Fresh n m u := by
    refine (hresult.of_lone_item hnode htn hop).resolve_left ?_
    rintro ⟨-, rfl⟩
    simp [allSame, same_self] at hmoved
  obtain ⟨rfl, hfresh⟩ := hfresh
  refine (gives_frames t m).bind fun k fs hk hfs => ?_
  have hframes : t.frames = [] := by rw [frames, htn]; rfl
  rw [hframes] at hfs
  cases hfs
  have hd : d == x := (List.forall₂_cons.mp hunshared.renews).1.beq
  have hsame : (allSame t.children [d] && ([] : List (Term × Term)).all fun e => e.1.same e.2) = false := by
    rw [hchildren]
    simpa using hmoved
  have hrebuild : t.rebuild [d] [] = pure d := rebuild_lone htn hop ((ListParts.isItem_congr hd).trans hitem)
  simp only [List.map_cons, List.map_nil, hrebuild, hedit]
  rw [if_neg (by rw [hsame]; exact Bool.false_ne_true)]
  have hfresh := hfresh.mono (Nat.le_refl n) hk
  have hunshared : Unshared s₁ n k [x] [d] := hunshared.mono hk
  refine .pure ⟨hfresh, ⟨t.mark, .list ops [d] [] []⟩, .cons (.lone htn hop rfl hfresh) .nil, ?_⟩
  exact .lone hheap hN htn hedit hunshared hs₁ hmet

/-- A node with a child that has become another one is made again. -/
theorem gives_settle_moved (hm : n ≤ m) (hlone : t.isLone → t.isEditable = false) (hstart : start ≤ m)
    (hmoved : allSame t.children (es.map (·.2)) = false) :
    Gives m (fun k u => Fresh n k u ∧ ∃ d, Walked s n k [t] [(d, u)]) (t.settle start (es.map (·.2))) := by
  cases hl : t.isLone with
  | true => exact gives_settle_lone hsettled hheap hN hs₁ hes hmet hl (hlone hl) hmoved start
  | false =>
  have hnode := (everyNode_iff.mp hsettled).1
  have hne : t.children ≠ [] := by
    intro hnil
    rw [hnil] at hmoved
    cases hmoved
  have hpassed : List.Forall₂ (Passed t) (es.map (·.1)) (es.map (·.2)) := by
    rw [List.forall₂_map_left_iff, List.forall₂_map_right_iff, List.forall₂_same]
    intro e he
    obtain ⟨c, hc, hresult⟩ := PairedLists.exists_mem hes.results.flip he
    exact passed_of_result hnode hc hresult
  have hrebuild : ∀ k fs, m ≤ k → List.Forall₂ (fun v f => f.node = .var v) t.frames fs →
      Gives k (fun k' v => (Fresh k k' v ∧ v.isEditable = false) ∧ ∀ u : Term, u.node = v.node →
        u.mark.id = v.mark.id → u == t ∧ List.Forall₂ (Redone m u.mark.id) (es.map (·.1)) u.children)
        (t.rebuild (es.map (·.2)) fs) := by
    intro k fs hk hfs
    refine (gives_rebuild hsettled hl hne hes.unshared.renews hpassed hfs k).mono fun k' v _ hv => ?_
    obtain ⟨hfresh, hedit, hbeq, hchildren⟩ := hv
    refine ⟨⟨hfresh, hedit⟩, fun u hnode hid => ⟨BEq.trans (beq_of_node_eq hnode) hbeq, ?_⟩⟩
    rw [Term.children, hnode, hid]
    exact hchildren.imp fun _ _ h => h.mono hk (Nat.le_refl _)
  refine (gives_settle_made hstart hmoved hrebuild).mono fun k u hk hu => ?_
  obtain ⟨hfresh, hedit, hbeq, hchildren⟩ := hu
  refine ⟨hfresh.mono hm (Nat.le_refl k), u, .cons (.made (hfresh.mono hm (Nat.le_refl k))) .nil, ?_⟩
  exact .anew hheap hN hm hes.unshared hs₁ hmet ⟨hbeq, hedit⟩ hfresh hchildren

end Node

theorem isEditable_of_isLone (ht : t.isSettled) (hc : c ∈ t.children) (hlone : c.isLone) :
    c.isEditable = false := by
  obtain ⟨ops, left, base, right, htn, hrun⟩ := isRun_of_isLone ht hc hlone
  have hlist : c.isListOf ops ∧ ops.isOperator := by
    obtain ⟨ops', x, hcn, hop⟩ := node_of_isLone hlone
    rw [ListParts.isRun, hcn, decide_eq_true_eq] at hrun
    rw [isListOf, hcn]
    exact ⟨decide_eq_true hrun, hrun ▸ hop⟩
  rw [isSettled, Bool.and_eq_true, htn] at ht
  obtain ⟨hitems, hbase⟩ := (Bool.and_eq_true _ _).mp ht.2
  rw [Term.children, htn] at hc
  -- items are no lists of the same operator, so it is one of the unknown parts
  have hitem : c ∉ left ++ right := fun hc => by
    have hitem := List.all_eq_true.mp hitems c hc
    simp [ListParts.isItem, ListParts.isPart, hlist] at hitem
  have hc : c ∈ base := by simpa [Node.children, not_or.mp (List.mem_append.not.mp hitem)] using hc
  split at hbase
  · rename_i hnil
    obtain rfl : base = [] := List.isEmpty_iff.mp hnil
    cases hc
  · have hedit := List.all_eq_true.mp ((Bool.and_eq_true _ _).mp hbase).2 c hc
    rw [if_pos hrun] at hedit
    simpa using hedit

/-- After its children, a walk that updates a node keeps it, or it makes it again. -/
theorem gives_settle {us : List Term} (hsettled : t.everyNode isSettled) (hlone : t.isLone → t.isEditable = false)
    (hheap : IsHeap N [t]) (hN : N ≤ n) (hm : n ≤ m) (hstart : start ≤ m)
    (hs₁ : MeetsTop s t s₁)
    (hes : ∃ es, us = es.map (·.2) ∧ Walked s₁ n m t.children es)
    (hmet : us ≠ t.children → ¬IsFirst s [t] [0]) :
    Gives m (fun k u => (u = t ∧ Unshared s₁ n k t.children t.children) ∨
      (Fresh n k u ∧ ∃ d, Walked s n k [t] [(d, u)])) (t.settle start us) := by
  obtain ⟨es, rfl, hes⟩ := hes
  cases hsame : allSame t.children (es.map (·.2)) with
  | true =>
    obtain ⟨hds, hus⟩ := Walked.eq_of_allSame hheap.children hN hes.results hsame
    have hunshared := hes.unshared
    rw [hds] at hunshared
    rw [hus]
    exact (gives_settle_same t start m).mono fun k u hk hu => .inl ⟨hu, hunshared.mono hk⟩
  | false =>
    have hmoved : es.map (·.2) ≠ t.children := fun h => by
      rw [h, allSame_self] at hsame
      cases hsame
    exact (gives_settle_moved hsettled hheap hN hs₁ hes (hmet hmoved) hm hlone hstart hsame).mono
      fun _ _ _ h => .inr h

/-! ### Copies -/

theorem gives_copy (hc : t.isCanonical = false) (k : Nat) :
    Gives k (fun k' u => Fresh k k' u ∧ u.node = t.node ∧ u.isEditable = t.isEditable) t.copy := by
  rw [copy, if_neg (by rw [hc]; exact Bool.false_ne_true)]
  exact ⟨{ t with mark.id := k }, k + 1, rfl, Nat.le_succ k, ⟨hc, Nat.le_refl k, Nat.lt_succ_self k⟩, rfl,
    rfl⟩

/-- A copy takes the place of a node of which the children were kept. -/
theorem gives_copy_kept (hheap : IsHeap N [t]) (hn : N ≤ n) (hk : n ≤ k) (hs₁ : MeetsTop s t s₁)
    (hmet : ¬IsFirst s [t] [0]) (hc : t.isCanonical = false) (h : Unshared s₁ n k t.children t.children) :
    Gives k (fun k' u => ∃ d, Walked s n k' [t] [(d, u)]) t.copy := by
  refine (gives_copy hc k).mono fun k' u hk' hu => ?_
  obtain ⟨hfresh, hun, hedit⟩ := hu
  have huc : u.children = t.children := by rw [Term.children, hun, Term.children]
  refine ⟨u, .cons (.made (hfresh.mono hk (Nat.le_refl k'))) .nil, ?_⟩
  exact .anew hheap hn hk h hs₁ hmet ⟨beq_of_node_eq hun, hedit⟩ hfresh (huc ▸ redone_refl _)

/-- A new node is none of those that there were before. -/
theorem Fresh.same_eq_false (hheap : IsHeap N [t]) (hn : N ≤ n) (h : Fresh n k u) : u.same t = false := by
  rw [same, h.isCanonical, if_neg Bool.false_ne_true]
  cases hc : t.isCanonical with
  | true => rfl
  | false =>
    have hlt := hheap.id_lt (isNode_single.mpr (.inl rfl)) hc
    have hle := h.le
    simp only [Bool.not_false, Bool.true_and, beq_eq_false_iff_ne, ne_eq]
    omega

theorem deepCopy_eq (t : Term) : t.deepCopy = if !t.touchesEditable then pure t else do
    let t' ← t.update (t.children.map deepCopy) pure
    if t'.same t then t.copy else return t' := by
  rw [deepCopy, fold_eq, ← deepCopy]

/-- Whatever was met before is copied. -/
theorem gives_deepCopyEach (hheap : IsHeap N cs) (hs : ∀ c, IsNode cs c → c.isEditable → c.mark.id ∈ s)
    (h : ∀ c ∈ cs, ∀ n, N ≤ n → Gives n (fun k u => ∃ d, Walked s n k [c] [(d, u)]) c.deepCopy) :
    ∀ n, N ≤ n → Gives n (fun k us => ∃ es, us = es.map (·.2) ∧ Walked s n k cs es) (cs.mapM deepCopy) := by
  induction cs with
  | nil =>
    intro n _
    rw [List.mapM_nil]
    exact .pure ⟨[], rfl, .nil s n n⟩
  | cons c cs ih =>
    intro n hn
    obtain ⟨hc, hcs⟩ := List.forall_mem_cons.mp h
    have hsc : ∀ d, IsNode [c] d → d.isEditable → d.mark.id ∈ s := fun d hd =>
      hs d (isNode_cons.mpr (.inl hd))
    rw [List.mapM_cons]
    refine (hc n hn).bind fun m u hm hu => ?_
    obtain ⟨d, hd⟩ := hu
    have hrest := ih hheap.tail (fun d hd => hs d (isNode_cons.mpr (.inr hd))) hcs m (Nat.le_trans hn hm)
    refine hrest.bind fun k us hk hus => .pure ?_
    obtain ⟨es, rfl, hes⟩ := hus
    exact ⟨(d, u) :: es, rfl, hd.cons hheap hn hm hk hes (.refl hsc)⟩

theorem gives_deepCopy (t : Term) : t.everyNode isSettled → (t.isLone → t.isEditable = false) → IsHeap N [t] →
    (∀ c, IsNode [t] c → c.isEditable → c.mark.id ∈ s) → ∀ n, N ≤ n →
      Gives n (fun k u => ∃ d, Walked s n k [t] [(d, u)]) t.deepCopy := by
  induction t using Term.induction with
  | h t ih =>
    intro hsettled hlone hheap hs n hn
    rw [deepCopy_eq]
    cases htouch : t.touchesEditable with
    | false =>
      exact .pure ⟨t, .cons .kept .nil, .of_untouched hheap fun _ => isEditable_of_untouched htouch⟩
    | true =>
    obtain ⟨hnode, hbelow, -⟩ := everyNode_iff.mp hsettled
    obtain ⟨e, he, hedit⟩ := touchesEditable_iff.mp htouch
    have htop : IsNode [t] t := isNode_single.mpr (.inl rfl)
    have hs' : ∀ c, IsNode t.children c → c.isEditable → c.mark.id ∈ s := fun c hc =>
      hs c (isNode_single.mpr (.inr hc))
    have hmarks : MeetsTop s t s := by
      refine fun i => ⟨.inl, ?_⟩
      rintro (hi | ⟨hedit, rfl⟩)
      · exact hi
      · exact hs t htop hedit
    have hmet : ¬IsFirst s [t] [0] := fun hfirst => by
      obtain ⟨p, hp⟩ := he
      rcases nodeAt?_cons hp with ⟨q, -, hq⟩ | ⟨q, -, hq⟩
      · exact (hfirst q e hq hedit).1 (hs e ⟨_, hq⟩ hedit)
      · cases q <;> cases hq
    have hchildren := gives_deepCopyEach hheap.children hs' fun c hc n hn =>
      have hc' : IsNode [t] c := isNode_single.mpr (.inr (isNode_of_mem hc))
      ih c hc (hbelow c hc) (isEditable_of_isLone hnode hc) (hheap.mono fun hd => hc'.trans hd)
        (fun d hd => hs d (hc'.trans hd)) n hn
    rw [if_neg (by simp)]
    have hupdate : Gives n (fun k u => (u = t ∧ Unshared s n k t.children t.children) ∨
        (Fresh n k u ∧ ∃ d, Walked s n k [t] [(d, u)])) (t.update (t.children.map deepCopy) pure) := by
      rw [update_pure_eq]
      refine Gives.bind (p := fun k start => k = n ∧ start = n) ⟨n, n, rfl, Nat.le_refl n, rfl, rfl⟩ ?_
      rintro _ _ - ⟨rfl, rfl⟩
      refine (hchildren _ hn).bind fun m us hm hes => ?_
      exact gives_settle hsettled hlone hheap hn hm hm hmarks hes fun _ => hmet
    refine hupdate.bind fun k u hk hu => ?_
    rcases hu with ⟨rfl, hunshared⟩ | ⟨hfresh, hwalked⟩
    · -- nothing below it is editable, so it is itself
      have hedit : u.isEditable := by
        rcases isNode_single.mp he with rfl | he
        · exact hedit
        · exact absurd (hs' e he hedit) (hunshared.not_mem hheap.children hn he hedit)
      rw [if_pos (same_self u)]
      exact gives_copy_kept hheap hn hk hmarks hmet (hheap.isCanonical htop hedit) hunshared
    · rw [if_neg (by rw [hfresh.same_eq_false hheap hn]; exact Bool.false_ne_true)]
      exact .pure hwalked

/-! ### Taking apart -/

theorem unshare_eq (t : Term) (s : List Nat) : t.unshare s = if !t.touchesEditable then pure (t, s)
    else if t.isEditable && s.contains t.mark.id then (do return (← t.deepCopy, s))
    else (do
      let start ← Build.nextId
      let (us, s') ← t.children.mapM unshare (if t.isEditable then t.mark.id :: s else s)
      return (← t.settle start us, s')) := by
  rw [unshare, fold_eq, ← unshare]
  cases t.touchesEditable with
  | false => rfl
  | true =>
    cases hedit : t.isEditable with
    | false =>
      simp only [update_pure_eq]
      rfl
    | true =>
      simp only [update_pure_eq]
      have hget {α : Type} (f : List Nat → StateT (List Nat) Build α) : (get >>= f) s = f s s := rfl
      simp only [if_true, Bool.not_true, Bool.false_eq_true, if_false, Bool.true_and, hget]
      split <;> rfl

theorem gives_unshareEach (hheap : IsHeap N cs) (h : ∀ c ∈ cs, ∀ n s, N ≤ n → IsClosed s [c] →
      Gives n (fun k r => (∃ d, Walked s n k [c] [(d, r.1)]) ∧ Meets s [c] r.2) (c.unshare s)) :
    ∀ n s, N ≤ n → IsClosed s cs → Gives n (fun k r => (∃ es, r.1 = es.map (·.2) ∧ Walked s n k cs es) ∧
      Meets s cs r.2) (cs.mapM unshare s) := by
  induction cs with
  | nil =>
    intro n s _ _
    rw [List.mapM_nil]
    exact .pure ⟨⟨[], rfl, .nil s n n⟩, .refl fun _ h => by rcases isNode_iff.mp h with ⟨_, h, _⟩; cases h⟩
  | cons c cs ih =>
    intro n s hn hclosed
    obtain ⟨hc, hcs⟩ := List.forall_mem_cons.mp h
    rw [List.mapM_cons]
    refine (hc n s hn hclosed.head).bind fun m r hm hr => ?_
    obtain ⟨u, s'⟩ := r
    obtain ⟨⟨d, hd⟩, hs'⟩ := hr
    have hrest := ih hheap.tail hcs m s' (Nat.le_trans hn hm) (hclosed.tail hheap hs')
    refine hrest.bind fun k r hk hr => .pure ?_
    obtain ⟨us, s''⟩ := r
    obtain ⟨⟨es, rfl, hes⟩, hs''⟩ := hr
    exact ⟨⟨(d, u) :: es, rfl, hd.cons hheap hn hm hk hes hs'⟩, hs'.trans hs''⟩

theorem gives_unshare (t : Term) : t.everyNode isSettled → (t.isLone → t.isEditable = false) → IsHeap N [t] →
    ∀ n s, N ≤ n → IsClosed s [t] →
      Gives n (fun k r => (∃ d, Walked s n k [t] [(d, r.1)]) ∧ Meets s [t] r.2) (t.unshare s) := by
  induction t using Term.induction with
  | h t ih =>
    intro hsettled hlone hheap n s hn hclosed
    obtain ⟨hnode, hbelow, -⟩ := everyNode_iff.mp hsettled
    have htop : IsNode [t] t := isNode_single.mpr (.inl rfl)
    rw [unshare_eq]
    cases htouch : t.touchesEditable with
    | false =>
      have hno : ∀ c, IsNode [t] c → c.isEditable = false := fun _ => isEditable_of_untouched htouch
      refine .pure ⟨⟨t, .cons .kept .nil, .of_untouched hheap hno⟩, .refl fun c hc hedit => ?_⟩
      rw [hno c hc] at hedit
      cases hedit
    | true =>
    rw [if_neg (by simp)]
    split
    · -- it was met before, and then everything below it was
      rename_i hseen
      rw [Bool.and_eq_true, List.contains_iff_mem] at hseen
      have hs := hclosed t htop hseen.1 hseen.2
      refine (gives_deepCopy t hsettled hlone hheap hs n hn).bind fun k u _ hu => .pure ⟨hu, .refl hs⟩
    · rename_i hnew
      have hnew : t.isEditable → t.mark.id ∉ s := fun hedit hi => hnew (by simp [hedit, hi])
      have hmarks : MeetsTop s t (if t.isEditable then t.mark.id :: s else s) := by
        intro i
        cases t.isEditable <;> simp [or_comm, eq_comm]
      generalize (if t.isEditable then t.mark.id :: s else s) = s₁ at hmarks ⊢
      have hchildren := gives_unshareEach hheap.children (fun c hc => by
        have hc' : IsNode [t] c := isNode_single.mpr (.inr (isNode_of_mem hc))
        exact ih c hc (hbelow c hc) (isEditable_of_isLone hnode hc) (hheap.mono fun hd => hc'.trans hd))
        n s₁ hn (hclosed.children hheap hmarks)
      refine Gives.bind (p := fun k start => k = n ∧ start = n) ⟨n, n, rfl, Nat.le_refl n, rfl, rfl⟩ ?_
      rintro _ _ - ⟨rfl, rfl⟩
      refine hchildren.bind fun m r hm hr => ?_
      obtain ⟨us, s'⟩ := r
      obtain ⟨hes, hs'⟩ := hr
      have hmet : us ≠ t.children → ¬IsFirst s [t] [0] := by
        intro hmoved hfirst
        obtain ⟨es, rfl, hes⟩ := hes
        refine hmoved (Walked.eq_of_eq hheap.children hn hes.results ?_)
        refine List.ext_getElem hes.unshared.renews.length_eq fun i hi hi' => ?_
        have hc : nodeAt? t.children [i] = some t.children[i] :=
          (nodeAt?_top _ i).trans (List.getElem?_eq_getElem hi')
        have hkept := hes.unshared.kept hc (.inl rfl) ((hfirst.append [i]).children (List.cons_ne_nil i []) hmarks)
        rw [nodeAt?_top, List.getElem?_eq_getElem hi] at hkept
        exact Option.some.inj hkept
      refine (gives_settle hsettled hlone hheap hn hm hm hmarks hes hmet).bind fun k u hk hu => .pure ?_
      refine ⟨?_, .node hmarks hs'⟩
      rcases hu with ⟨rfl, hunshared⟩ | ⟨-, hwalked⟩
      · exact ⟨u, .cons .kept .nil, .same hheap hn hunshared hmarks hnew⟩
      · exact hwalked

/-! ### Terms taken apart -/

/-- The terms `us` are the terms `ts` without any sharing of editable nodes. -/
structure TakenApart (ts us : List Term) : Prop where
  equal : Equal us ts
  /-- An editable node has one position. -/
  single {p q : List Nat} {u v : Term} (hu : nodeAt? us p = some u) (hv : nodeAt? us q = some v)
    (hedit : u.isEditable) (hsame : u.same v) : p = q
  /-- At its first position an editable node stays the node it is, if every editable node below it is at its
  first position as well. -/
  first {p : List Nat} {t : Term} (ht : nodeAt? ts p = some t) (hedit : t.isEditable)
    (hfirst : ∀ q u, nodeAt? ts (p ++ q) = some u → u.isEditable →
      ∀ r < p ++ q, ∀ v, nodeAt? ts r = some v → v.same u = false) : nodeAt? us p = some t
  /-- A term in which nothing is editable stays the node it is. -/
  untouched {i : Nat} {t : Term} (ht : ts[i]? = some t) (h : t.touchesEditable = false) : us[i]? = some t

theorem Unshared.takenApart (hheap : IsHeap n ts) (h : Unshared [] n k ts us) : TakenApart ts us where
  equal := h.renews.imp fun _ _ h => h.beq
  single {p q u v} hu hv hedit hsame := by
    rw [Term.same, h.isCanonical ⟨p, hu⟩ hedit, if_neg Bool.false_ne_true] at hsame
    simp only [Bool.and_eq_true, Bool.not_eq_true', beq_iff_eq] at hsame
    exact h.single hu hv hedit hsame.1 hsame.2
  first {p t} ht hedit hfirst := by
    refine h.kept ht (.inr hedit) fun q u hu hedit' => ⟨List.not_mem_nil, fun r hr v hv hedit'' hid => ?_⟩
    have hv' := hheap.isCanonical ⟨r, hv⟩ hedit''
    have hu' := hheap.isCanonical ⟨_, hu⟩ hedit'
    have hdiffer := hfirst q u hu hedit' r hr v hv
    rw [Term.same, hv', hu', hid] at hdiffer
    simp at hdiffer
  untouched {i t} ht h' := by
    have ht' : nodeAt? ts [i] = some t := (nodeAt?_top ts i).trans ht
    refine (nodeAt?_top us i).symm.trans (h.kept ht' (.inl rfl) fun q u hu hedit => ?_)
    -- it has no editable node at all
    rw [nodeAt?_append (List.cons_ne_nil i []), ht', Option.bind_some] at hu
    have htouch : t.touchesEditable := touchesEditable_iff.mpr ⟨u, ⟨0 :: q, hu⟩, hedit⟩
    rw [h'] at htouch
    cases htouch

/-- Whatever terms in builder normal form share, they are taken apart. -/
theorem takesApart_unshareAll {n : Nat} {ts : List Term} (hheap : IsHeap n ts)
    (hnormal : ∀ t ∈ ts, t.isBuilderNormal) : Gives n (fun _ us => TakenApart ts us) (unshareAll ts) := by
  have hnormal' (t : Term) (ht : t ∈ ts) : t.isLone = false ∧ t.everyNode isSettled := by
    have h := hnormal t ht
    rwa [isBuilderNormal, Bool.and_eq_true, Bool.not_eq_true'] at h
  have hclosed : IsClosed [] ts := fun _ _ _ hi => absurd hi List.not_mem_nil
  have heach := gives_unshareEach hheap (fun t ht n s hn hs => by
    obtain ⟨hlone, hsettled⟩ := hnormal' t ht
    have ht' : IsNode ts t := isNode_of_mem ht
    exact gives_unshare t hsettled (by simp [hlone]) (hheap.mono fun hd => ht'.trans hd) n s hn hs)
    n [] (Nat.le_refl n) hclosed
  refine heach.bind fun k r _ hr => .pure ?_
  obtain ⟨us, s⟩ := r
  obtain ⟨⟨es, rfl, hes⟩, -⟩ := hr
  have hpassed : es.map (·.2) = es.map (·.1) := by
    refine List.map_congr_left fun e he => ?_
    obtain ⟨t, ht, hresult⟩ := PairedLists.exists_mem hes.results.flip he
    generalize e.1 = d, e.2 = u at hresult
    cases hresult with
    | kept => rfl
    | made _ => rfl
    | @lone ops _ _ _ htn hop _ _ =>
      have hlone : ops.isOperator = false := by
        have h := (hnormal' t ht).1
        rwa [isLone, htn] at h
      rw [hop] at hlone
      cases hlone
  exact hpassed ▸ hes.unshared.takenApart hheap

/-- An editable map that holds an editable set. -/
def sharedSet : Term := ⟨⟨0, true⟩, .set .set [constant "a"] []⟩

def sharedMap : Term := ⟨⟨1, true⟩, .map .map [(constant "k", sharedSet)] []⟩

/-- The map twice and the set once more in one term, and the map again in another one. -/
def sharers : List Term :=
  [⟨⟨2, false⟩, .app (.const "f") [sharedMap, sharedMap, sharedSet] .kItem⟩,
    ⟨⟨3, false⟩, .app (.const "g") [sharedMap] .kItem⟩]

theorem isHeap_sharers : IsHeap 4 sharers := by
  refine .of_nodes (l := sharers ++ [sharedMap, sharedSet, constant "k", constant "a"]) (fun ht => ?_)
    (by decide) (by decide) (by decide)
  simp only [sharers, sharedMap, sharedSet, constant, isNode_cons_iff, isNode_nil, Term.children,
    Node.children, List.flatMap_cons, List.flatMap_nil, List.append_nil, or_false] at ht
  simp only [sharers, sharedMap, sharedSet, constant, List.cons_append, List.nil_append, List.mem_cons,
    List.not_mem_nil, or_false]
  tauto

theorem takesApart_sharers : IsHeap 4 sharers ∧ (∀ t ∈ sharers, t.isBuilderNormal) ∧
    Gives 4 (fun _ us => TakenApart sharers us) (unshareAll sharers) :=
  ⟨isHeap_sharers, by decide, takesApart_unshareAll isHeap_sharers (by decide)⟩

end RuleCompiler.Term
