import RuleCompiler.Proofs.Builder.Entries
import RuleCompiler.Proofs.Builder.Sequence
import RuleCompiler.Proofs.Matching.Reads

/-! # Nodes made again

A term is in builder normal form when each of its nodes is as the builders leave it, whatever parts are
unknown. Such a node made again from equal children has these as its children, one by one, but for
those that builders make themselves: variables that are no longer the last item of a sequence, and runs
of known items between unknown parts of a list. These are never editable. -/

namespace RuleCompiler

open Build (Gives)

/-! ### Normal form -/

namespace SequenceParts

/-- Whether builders leave the sequence as it is, and its segments among the items are none that could be
edited. -/
def isSettled (p : SequenceParts) : Bool :=
  p.isProper && p.items.all fun t => (Matching.segment? t).isNone || !t.isEditable

end SequenceParts

namespace ListParts

/-- Whether builders leave the list as it is. -/
def isSettled (p : ListParts) : Bool :=
  (p.left ++ p.right).all (isItem p.ops) &&
    if p.base.isEmpty then p.right.isEmpty && !(p.ops.isOperator && p.left.isEmpty)
    else runsApart p.ops p.base && !(p.left.isEmpty && p.base.length == 1 && p.right.isEmpty) &&
      p.base.all fun b => if isRun p.ops b then !b.isEditable else isUnresolved { ops := p.ops } b

end ListParts

namespace CellParts

/-- Whether builders leave the cells as they are. -/
def isSettled (p : CellParts) : Bool :=
  p.isNormal && decide (p.frames.Pairwise fun v w => compareFrames w v ≠ .lt) &&
    !(p.cells.isEmpty && p.frames.length == 1)

end CellParts

namespace Term

/-- Whether the term is a list of a user operator with a single item. Builders make such a list only for
an item between unknown parts of a list; anywhere else the item stands for itself. -/
def isLone (t : Term) : Bool :=
  match t.node with
  | .list ops [_] [] [] => ops.isOperator
  | _ => false

/-- Whether builders leave the node as it is. -/
def isSettled (t : Term) : Bool :=
  let isRunOf (c : Term) := match t.node with
    | .list ops .. => ListParts.isRun ops c
    | _ => false
  (t.children.all fun c => !c.isLone || isRunOf c) && match t.node with
    | .seq items frame => SequenceParts.isSettled ⟨items, frame⟩
    | .list ops left base right => ListParts.isSettled { ops, left, base, right }
    | .map ops entries base => MapParts.isNormal { ops, entries, base }
    | .set ops elements base => SetParts.isNormal { ops, elements, base }
    | .cells cs frames => CellParts.isSettled ⟨cs, frames⟩
    | _ => true

/-- Whether the term is in builder normal form. -/
def isBuilderNormal (t : Term) : Bool := !t.isLone && t.everyNode isSettled

/-! ### New nodes -/

/-- The node is one of those numbered from `n` to `k`. -/
structure Fresh (n k : Nat) (t : Term) : Prop where
  isCanonical : t.isCanonical = false
  le : n ≤ t.mark.id
  lt : t.mark.id < k

theorem Fresh.mono {n n' k k' : Nat} {t : Term} (h : Fresh n k t) (hn : n' ≤ n) (hk : k ≤ k') :
    Fresh n' k' t :=
  ⟨h.isCanonical, Nat.le_trans hn h.le, Nat.lt_of_lt_of_le h.lt hk⟩

/-- The same node, or a new one that is not editable with the contents of one that is not. -/
inductive Redone (n k : Nat) (t : Term) : Term → Prop where
  | kept : Redone n k t t
  | anew {u : Term} (hn : u.node = t.node) (ht : t.isEditable = false) (hu : u.isEditable = false)
      (hfresh : Fresh n k u) : Redone n k t u

/-- A term equal to another, and editable where that is. -/
structure Renews (u t : Term) : Prop where
  beq : u == t
  isEditable : u.isEditable = t.isEditable

/-- A child of `t` as its builder is given it: an item may come without the list around it. -/
inductive Passed (t d : Term) : Term → Prop where
  | child : Passed t d d
  | item {ops : CollectionOps} {left base right : List Term} {u : Term}
      (hn : t.node = .list ops left base right) (hop : ops.isOperator)
      (hd : d.node = .list ops [u] [] []) : Passed t d u

/-- The node made again with `ds` for children. -/
structure Rebuilt (t : Term) (ds : List Term) (n k : Nat) (u : Term) : Prop where
  fresh : Fresh n k u
  isEditable : u.isEditable = false
  beq : u == t
  children : List.Forall₂ (Redone n u.mark.id) ds u.children

variable {t u : Term} {ds us : List Term} {n k : Nat}

theorem node_of_isLone (h : t.isLone) : ∃ ops x, t.node = .list ops [x] [] [] ∧ ops.isOperator := by
  unfold isLone at h
  split at h
  · exact ⟨_, _, ‹_›, h⟩
  · cases h

theorem Redone.node (h : Redone n k t u) : u.node = t.node := by
  cases h with
  | kept => rfl
  | anew hn => exact hn

theorem Redone.mono {n' k' : Nat} (h : Redone n k t u) (hn : n' ≤ n) (hk : k ≤ k') : Redone n' k' t u := by
  cases h with
  | kept => exact .kept
  | anew hn' ht hu hfresh => exact .anew hn' ht hu (hfresh.mono hn hk)

theorem equal_of_redone (h : List.Forall₂ (Redone n k) ds us) : Equal us ds :=
  h.flip.imp fun _ _ h => beq_of_node_eq h.node

theorem redone_refl : ∀ ds : List Term, List.Forall₂ (Redone n k) ds ds
  | [] => .nil
  | _ :: ds => .cons .kept (redone_refl ds)

theorem gives_new {m : Node Term} (hm : m.isCanonical = false) (k : Nat) :
    Gives k (fun k' u => Fresh k k' u ∧ u.isEditable = false ∧ u.node = m) (new m) := by
  rw [new, if_neg (by rw [hm]; exact Bool.false_ne_true)]
  exact ⟨⟨{ id := k }, m⟩, k + 1, rfl, Nat.le_succ k, ⟨hm, Nat.le_refl k, Nat.lt_succ_self k⟩, rfl, rfl⟩

/-- The new node has the children it is given, and they were made before it. -/
theorem gives_rebuilt {m : Node Term} (hm : m.isCanonical = false)
    (halike : Node.Alike (fun a b => a == b) m t.node) (hc : m.children = us)
    (hus : List.Forall₂ (Redone n k) ds us) (hn : n ≤ k) : Gives k (Rebuilt t ds n) (new m) := by
  refine (gives_new hm k).mono fun k' u hk hu => ?_
  obtain ⟨hfresh, hedit, hum⟩ := hu
  refine ⟨hfresh.mono hn (Nat.le_refl k'), hedit, beq_of_alike (hum ▸ halike), ?_⟩
  rw [children, hum, hc]
  exact hus.imp fun _ _ h => h.mono (Nat.le_refl n) hfresh.le

theorem gives_rebuilt_new {m : Node Term} (hm : m.isCanonical = false)
    (halike : Node.Alike (fun a b => a == b) m t.node) (hc : m.children = ds) (k : Nat) :
    Gives k (Rebuilt t ds k) (new m) :=
  gives_rebuilt hm halike hc (redone_refl ds) (Nat.le_refl k)

theorem eq_of_passed (hlist : ∀ ops left base right, t.node ≠ .list ops left base right)
    (h : List.Forall₂ (Passed t) ds us) : us = ds := by
  induction h with
  | nil => rfl
  | cons hd _ ih =>
    cases hd with
    | child => rw [ih]
    | item hn => exact absurd hn (hlist _ _ _ _)

end Term

/-! ### Maps, sets and cells -/

open Term (Equal Rebuilt)

theorem CellParts.build_of_sorted {cs : List Cell} {frames : List Var}
    (hcells : cs.Pairwise fun c d => (compareCells c d).isLE)
    (hframes : frames.Pairwise fun v w => compareFrames w v ≠ .lt)
    (hmany : (cs.isEmpty && frames.length == 1) = false) :
    build ⟨cs, frames⟩ = Term.new (.cells cs frames) := by
  unfold build
  split
  · rename_i hnil hone
    dsimp only at hnil hone
    subst hnil hone
    cases hmany
  · rw [SortedList.sort_of_sorted hcells, SortedList.sort_eq_self hframes]

theorem MapParts.putAll_eq_append {es : List (Term × Term)} : ∀ {l : List (Term × Term)},
    ((l ++ es).Pairwise fun a b => a.1.cmp b.1 = .lt) → putAll es l = l ++ es := by
  induction es with
  | nil => intro l _; rw [List.append_nil]; rfl
  | cons e es ih =>
    intro l h
    have hput : SortedList.put Term.cmp e.1 e.2 l = l ++ [e] :=
      SortedList.put_eq_append fun f hf => (List.pairwise_append.mp h).2.2 f hf e List.mem_cons_self
    rw [List.append_cons] at h ⊢
    rw [putAll, List.foldl_cons, hput, ← putAll, ih h]

theorem MapParts.gives_rebuild {t : Term} {ops : CollectionOps} {es : List (Term × Term)}
    {base ds fs : List Term} (hn : t.node = .map ops es base)
    (hnormal : isNormal { ops, entries := es, base }) (hds : Equal ds t.children) (k : Nat) :
    Build.Gives k (Rebuilt t ds k) (t.rebuild ds fs) := by
  rw [Term.children, hn] at hds
  obtain ⟨es', bs, rfl, hes, hbs⟩ := exists_entries hds
  simp only [isNormal, Bool.and_eq_true, decide_eq_true_eq, Bool.not_eq_true'] at hnormal
  obtain ⟨⟨⟨hkeys, hbase⟩, hparts⟩, hmany⟩ := hnormal
  have hlen : es'.length = es.length := by
    have h := congrArg List.length hes
    rwa [List.length_map, List.length_map] at h
  have hkeys' : es'.Pairwise fun a b => a.1.cmp b.1 = .lt := by
    have hcodes : (es.map Term.entryCode).Pairwise fun a b => Term.cmpCode a.1 b.1 = .lt :=
      List.pairwise_map.mpr hkeys
    exact List.pairwise_map.mp (hes ▸ hcodes)
  have hbase' : bs.Pairwise fun a b => (a.cmp b).isLE := hbs.pairwise_cmp (P := (·.isLE)) hbase
  have hparts' : ∀ b ∈ bs, isPart ops b := hbs.forall_mem isPart_congr (List.all_eq_true.mp hparts)
  have hbuild : build { ops, entries := es', base := bs } = Term.new (.map ops es' bs) := by
    have hmany' : (es'.isEmpty && bs.length == 1) = false := by
      rwa [PairedLists.isEmpty_of_length hlen, hbs.length_eq]
    rw [build_of_many hmany', SortedList.sort_of_sorted hbase']
  rw [rebuild_eq hn hlen, putAll_eq_append (by exact hkeys'), List.nil_append,
    foldl_concat_parts (p := ⟨ops, es', []⟩) hparts', List.nil_append, hbuild]
  refine Term.gives_rebuilt_new rfl ?_ rfl k
  rw [hn]
  refine .map (PairedLists.of_map_eq (fun e e' h => ?_) hes) hbs
  rw [Term.entryCode, Term.entryCode, Prod.mk.injEq] at h
  exact ⟨Term.beq_iff.mpr h.1, Term.beq_iff.mpr h.2⟩

theorem SetParts.addAll_eq_append {es : List Term} : ∀ {l : List Term},
    ((l ++ es).Pairwise fun a b => a.cmp b = .lt) → addAll es l = l ++ es := by
  induction es with
  | nil => intro l _; rw [List.append_nil]; rfl
  | cons e es ih =>
    intro l h
    have hadd : SortedList.addNew Term.cmp e l = l ++ [e] :=
      SortedList.addNew_eq_append fun f hf => (List.pairwise_append.mp h).2.2 f hf e List.mem_cons_self
    rw [List.append_cons] at h ⊢
    rw [addAll, List.foldl_cons, hadd, ← addAll, ih h]

theorem SetParts.gives_rebuild {t : Term} {ops : CollectionOps} {es base ds fs : List Term}
    (hn : t.node = .set ops es base) (hnormal : isNormal { ops, elements := es, base })
    (hds : Equal ds t.children) (k : Nat) : Build.Gives k (Rebuilt t ds k) (t.rebuild ds fs) := by
  rw [Term.children, hn] at hds
  obtain ⟨es', bs, rfl, hes, hbs⟩ := hds.exists_append
  simp only [isNormal, Bool.and_eq_true, decide_eq_true_eq, Bool.not_eq_true'] at hnormal
  obtain ⟨⟨⟨helements, hbase⟩, hparts⟩, hmany⟩ := hnormal
  have helements' : es'.Pairwise fun a b => a.cmp b = .lt := hes.pairwise_cmp (P := (· = .lt)) helements
  have hbase' : bs.Pairwise fun a b => (a.cmp b).isLE := hbs.pairwise_cmp (P := (·.isLE)) hbase
  have hparts' : ∀ b ∈ bs, isPart ops b := hbs.forall_mem isPart_congr (List.all_eq_true.mp hparts)
  have hbuild : build { ops, elements := es', base := bs } = Term.new (.set ops es' bs) := by
    have hmany' : (es'.isEmpty && bs.length == 1) = false := by
      rwa [PairedLists.isEmpty_eq hes, hbs.length_eq]
    rw [build_of_many hmany', SortedList.sort_of_sorted hbase']
  have hrebuild : t.rebuild (es' ++ bs) fs = (bs.foldl concat { ops, elements := addAll es' [] }).build := by
    unfold Term.rebuild
    rw [hn]
    simp only [List.splitAt_eq, ← hes.length_eq, List.take_left, List.drop_left]
    rw [foldl_add]
  rw [hrebuild, addAll_eq_append (by exact helements'), List.nil_append,
    foldl_concat_parts (p := ⟨ops, es', []⟩) hparts', List.nil_append, hbuild]
  refine Term.gives_rebuilt_new rfl ?_ rfl k
  rw [hn]
  exact .set hes hbs

theorem CellParts.foldlM_concat_vars {vs : List Var} {fs : List Term}
    (h : List.Forall₂ (fun v f => f.node = .var v) vs fs) : ∀ p : CellParts,
      fs.foldlM concat p = pure { p with frames := p.frames ++ vs } := by
  induction h with
  | nil => intro p; rw [List.foldlM_nil, List.append_nil]
  | @cons v f vs fs hv _ ih =>
    intro p
    have hconcat : p.concat f = pure { p with frames := p.frames ++ [v] } := by rw [concat, hv]
    rw [List.foldlM_cons, hconcat, pure_bind, ih, List.append_assoc]
    rfl

theorem CellParts.gives_rebuild {t : Term} {cs : List Cell} {frames : List Var} {ds fs : List Term}
    (hn : t.node = .cells cs frames) (hsettled : isSettled ⟨cs, frames⟩) (hds : Equal ds t.children)
    (hfs : List.Forall₂ (fun v f => f.node = .var v) t.frames fs) (k : Nat) :
    Build.Gives k (Rebuilt t ds k) (t.rebuild ds fs) := by
  rw [Term.children, hn] at hds
  rw [Term.frames, hn] at hfs
  have hlen : cs.length = ds.length := by
    have h := hds.length_eq
    simpa [Node.children] using h.symm
  simp only [isSettled, isNormal, Bool.and_eq_true, decide_eq_true_eq, Bool.not_eq_true'] at hsettled
  obtain ⟨⟨hcells, hframes⟩, hmany⟩ := hsettled
  have hcontents : (withContents cs ds).map (·.content) = ds := map_content_withContents hlen
  have hcodes : (withContents cs ds).map cellCode = cs.map cellCode :=
    withContents_codes (List.forall₂_same.mpr fun _ _ => rfl) hds
  have hcells' : (withContents cs ds).Pairwise fun c d => (compareCells c d).isLE := by
    have h : (cs.map cellCode).Pairwise fun a b => (compareCodes a b).isLE := List.pairwise_map.mpr hcells
    exact List.pairwise_map.mp (hcodes ▸ h)
  have hlen' : (withContents cs ds).length = cs.length := by
    rw [hlen, ← congrArg List.length hcontents, List.length_map]
  have hbuild : build ⟨withContents cs ds, frames⟩ = Term.new (.cells (withContents cs ds) frames) :=
    build_of_sorted hcells' hframes (by rwa [PairedLists.isEmpty_of_length hlen'])
  rw [rebuild_eq hn, Term.cellsFrom, foldlM_concat_vars hfs, pure_bind, List.nil_append]
  show Build.Gives k (Rebuilt t ds k) (build ⟨withContents cs ds, frames⟩)
  rw [hbuild]
  refine Term.gives_rebuilt_new rfl ?_ (by exact hcontents) k
  rw [hn]
  refine .cells (List.forall₂_iff_get.mpr ⟨?_, fun i hi hi' => ?_⟩)
  · rw [List.length_zipWith, ← hlen, Nat.min_self]
  · have hget := List.forall₂_iff_get.mp hds
    simp only [List.get_eq_getElem, List.getElem_zipWith, true_and]
    have := hget.2 i (hlen ▸ hi') (by simpa [Node.children] using hi')
    simpa [Node.children] using this

/-! ### Sequences -/

namespace SequenceParts

open Term (Redone Renews)
open Build (Gives)

variable {n k : Nat}

/-- The parts hold the items `ts`, of which the last may be the frame for now. -/
inductive Holding (n k : Nat) (p : SequenceParts) : List Term → Prop where
  | items {ts : List Term} (hframe : p.frame = none) (h : List.Forall₂ (Redone n k) ts p.items) :
      Holding n k p ts
  | frame {ts : List Term} {t : Term} {v : Var} (hframe : p.frame = some v)
      (ht : Matching.segment? t = some v) (hedit : t.isEditable = false)
      (h : List.Forall₂ (Redone n k) ts p.items) : Holding n k p (ts ++ [t])

theorem gives_allItems {p : SequenceParts} {ts : List Term} (h : Holding n k p ts) (hn : n ≤ k) :
    Gives k (fun k' => List.Forall₂ (Redone n k') ts) p.allItems := by
  cases h with
  | items hframe h =>
    rw [allItems, hframe]
    exact .pure h
  | @frame ts t v hframe ht hedit h =>
    rw [allItems, hframe]
    refine (Term.gives_new (m := .var v) rfl k).bind fun k' u hk hu => .pure ?_
    obtain ⟨hfresh, hu, hun⟩ := hu
    have hlast : Redone n k' t u := .anew (hun.trans (Term.node_of_segment? ht).1.symm) hedit hu
      (hfresh.mono hn (Nat.le_refl k'))
    exact List.rel_append (h.imp fun _ _ h => h.mono (Nat.le_refl n) hk) (.cons hlast .nil)

theorem gives_add {p : SequenceParts} {ts : List Term} {t : Term} (h : Holding n k p ts) (ht : isPlain t)
    (hedit : (Matching.segment? t).isNone || !t.isEditable) (hn : n ≤ k) :
    Gives k (fun k' q => Holding n k' q (ts ++ [t])) (p.add t) := by
  have hitem (hs : Matching.segment? t = none) :
      Gives k (fun k' q => Holding n k' q (ts ++ [t])) (do return ⟨(← p.allItems) ++ [t], none⟩) :=
    (gives_allItems h hn).bind fun k' us _ hus =>
      .pure (.items rfl (List.rel_append hus (.cons .kept .nil)))
  unfold add
  split
  · rename_i hn
    rw [isPlain, hn] at ht
    cases ht
  · rename_i hn
    rw [isPlain, hn] at ht
    cases ht
  · rename_i v hv
    by_cases hk : v.sort = .k
    · simp only [hk, if_true]
      have hs : Matching.segment? t = some v := by
        rw [Matching.segment?, Term.asVar?_of_var hv]
        exact Option.filter_eq_some_iff.mpr ⟨rfl, decide_eq_true hk⟩
      rw [hs] at hedit
      exact (gives_allItems h hn).bind fun k' us _ hus => .pure (.frame rfl hs (by simpa using hedit) hus)
    · simp only [hk, if_false]
      refine hitem ?_
      rw [Matching.segment?, Term.asVar?_of_var hv]
      exact Option.filter_eq_none_iff.mpr fun w hw => by cases hw; simpa using hk
  · rename_i hv
    refine hitem ?_
    have hnone : t.asVar? = none := by
      unfold Term.asVar?
      split
      · exact absurd ‹_› (hv _)
      · rfl
    rw [Matching.segment?, hnone]
    rfl

theorem gives_addAll {ts : List Term} : ∀ {p : SequenceParts} {us : List Term} {k : Nat},
    Holding n k p us → (∀ t ∈ ts, isPlain t ∧ ((Matching.segment? t).isNone || !t.isEditable)) →
      n ≤ k → Gives k (fun k' q => Holding n k' q (us ++ ts)) (p.addAll ts) := by
  induction ts with
  | nil =>
    intro p us k h _ _
    rw [addAll, List.foldlM_nil, List.append_nil]
    exact .pure h
  | cons t ts ih =>
    intro p us k h hts hn
    obtain ⟨ht, hts⟩ := List.forall_mem_cons.mp hts
    rw [addAll, List.foldlM_cons, List.append_cons]
    exact (gives_add h ht.1 ht.2 hn).bind fun k' q hk hq => ih hq hts (Nat.le_trans hn hk)

theorem build_eq {items : List Term} {frame : Option Var} (hne : items ≠ [])
    (hmany : ¬(items.length = 1 ∧ frame = none)) : build ⟨items, frame⟩ = Term.new (.seq items frame) := by
  unfold build
  split
  · simp_all
  · simp_all
  · simp_all

theorem gives_rebuild {t : Term} {items ds fs : List Term} {frame : Option Var} (hn : t.node = .seq items frame)
    (hsettled : isSettled ⟨items, frame⟩) (hne : items ≠ []) (hds : List.Forall₂ Renews ds t.children)
    (hfs : List.Forall₂ (fun v f => f.node = .var v) t.frames fs) (k : Nat) :
    Gives k (Rebuilt t ds k) (t.rebuild ds fs) := by
  rw [Term.children, hn] at hds
  rw [Term.frames, hn] at hfs
  have hequal : Equal ds items := hds.imp fun _ _ h => h.beq
  rw [isSettled, Bool.and_eq_true] at hsettled
  obtain ⟨hproper, hedit⟩ := hsettled
  obtain ⟨hplain, hmany, -, hsort, hlast⟩ := isProper_iff.mp hproper
  have hlen : ds.length = items.length := hequal.length_eq
  have hadded : ∀ d ∈ ds, isPlain d ∧ ((Matching.segment? d).isNone || !d.isEditable) := by
    intro d hd
    obtain ⟨c, hc, hdc⟩ := PairedLists.exists_mem hds hd
    rw [isPlain_congr hdc.beq, Term.segment?_congr hdc.beq, hdc.isEditable]
    exact ⟨hplain c hc, List.all_eq_true.mp hedit c hc⟩
  -- what is built of the items and the frame, whichever numbers there are by then
  have hbuilt {k' : Nat} (hk : k ≤ k') {us : List Term} (hus : List.Forall₂ (Redone k k') ds us) :
      Gives k' (Rebuilt t ds k) (build ⟨us, frame⟩) := by
    have hlen' : us.length = items.length := hus.length_eq.symm.trans hlen
    have hequal' : Equal us items := (Term.equal_of_redone hus).trans hequal
    have hus_ne : us ≠ [] := fun h => hne (List.eq_nil_of_length_eq_zero (by rw [← hlen', h]; rfl))
    rw [build_eq hus_ne fun h => hmany (hlen'.symm.trans h.1) h.2]
    have hcanonical : (Node.seq us frame).isCanonical = false := by
      unfold Node.isCanonical
      split <;> simp_all
    exact Term.gives_rebuilt hcanonical (hn ▸ .seq hequal') rfl hus hk
  have hrebuild : t.rebuild ds fs = Term.sequence (ds ++ fs) := by
    unfold Term.rebuild
    rw [hn]
  rw [hrebuild, Term.sequence, addAll, List.foldlM_append, bind_assoc]
  refine (gives_addAll (.items (p := {}) rfl .nil) hadded (Nat.le_refl k)).bind fun k' q hk hq => ?_
  rw [List.nil_append] at hq
  cases frame with
  | none =>
    cases hfs
    rw [List.foldlM_nil, pure_bind]
    cases hq with
    | items hframe h =>
      obtain ⟨qitems, qframe⟩ := q
      cases hframe
      exact hbuilt hk h
    | @frame ts d v hframe hd hdedit h =>
      -- then the last item is a segment
      obtain ⟨front, back, rfl, -, hback⟩ := hequal.symm.exists_append
      cases hback with
      | @cons c _ _ _ hcd hback =>
      cases hback
      have hc : Matching.segment? c = some v := by rw [Term.segment?_congr hcd, hd]
      rw [hlast rfl c List.getLast?_concat] at hc
      cases hc
  | some v =>
    cases hfs with
    | @cons _ f _ _ hf hfs =>
    cases hfs
    have hk' : v.sort = .k := hsort v rfl
    have hadd : q.add f = (do return ⟨← q.allItems, some v⟩) := by
      unfold add
      rw [hf]
      simp only [hk', if_true]
    simp only [List.foldlM_cons, List.foldlM_nil, hadd, bind_assoc, pure_bind]
    exact (gives_allItems hq hk).bind fun k'' us hk'' hus => hbuilt (Nat.le_trans hk hk'') hus

end SequenceParts

end RuleCompiler
