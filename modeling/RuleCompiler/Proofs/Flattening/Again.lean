import RuleCompiler.Proofs.Flattening.Walk

/-! # Flattening again

A flat term stays as it is when it is flattened. Known items that stand between unknown operands are a list of
their own, a run, among the children of a list. A run is flattened item by item; it is not told from its only
item, so what counts is which operands it has. -/

namespace RuleCompiler

open Build (Always)
open Term (Equal)

/-! ### Parts of lists -/

namespace ListParts
variable {ops : CollectionOps} {p : ListParts} {t u : Term} {w xs : List Term}

/-- The children of a list of the parts. -/
def children (p : ListParts) : List Term := p.left ++ (p.base ++ p.right)

/-- A list of known items among the unknown parts of a list. -/
def run (ops : CollectionOps) (xs : List Term) : Term := .canonical (.list ops xs [] [])

/-- Whether the operands are known, and none that a list would open up. -/
def AreKnown (ops : CollectionOps) (xs : List Term) : Prop :=
  ∀ x ∈ xs, isPart ops x ∧ isUnresolved { ops } x = false

/-- Known operands are all on the left. -/
theorem ofOperands_known (h : AreKnown ops xs) : ofOperands ops xs = { ops, left := xs } := by
  induction xs using List.reverseRecOn with
  | nil => rfl
  | append_singleton xs x ih =>
    rw [AreKnown, List.forall_mem_append, List.forall_mem_singleton] at h
    rw [ofOperands_concat, ih h.1, pushed, isUnresolved_ops, h.2.2]
    rfl

theorem listOf_known (h : AreKnown ops xs) (hlen : 2 ≤ xs.length) : Term.listOf ops xs = run ops xs := by
  obtain ⟨x, y, xs, rfl⟩ : ∃ x y zs, xs = x :: y :: zs := by
    match xs, hlen with
    | x :: y :: zs, _ => exact ⟨x, y, zs, rfl⟩
  rw [Term.listOf, ofOperands_known h]
  rfl

/-- Term by term the relation holds of what the terms stand for together. -/
def Covers (R : Term → List Term → Prop) (ts ws : List Term) : Prop :=
  ∃ zs, List.Forall₂ R ts zs ∧ zs.flatten = ws

variable {R : Term → List Term → Prop} {ts us ws ws' : List Term}

theorem Covers.nil : Covers R [] [] := ⟨[], .nil, rfl⟩

theorem Covers.single (h : R t ws) : Covers R [t] ws := ⟨[ws], .cons h .nil, List.append_nil ws⟩

theorem Covers.of_single (h : Covers R [t] ws) : R t ws := by
  obtain ⟨_, hzs, rfl⟩ := h
  cases hzs with
  | cons ht hnil =>
    cases hnil
    rwa [List.flatten_singleton]

theorem Covers.append (h : Covers R ts ws) (h' : Covers R us ws') : Covers R (ts ++ us) (ws ++ ws') := by
  obtain ⟨zs, hzs, rfl⟩ := h
  obtain ⟨zs', hzs', rfl⟩ := h'
  exact ⟨zs ++ zs', List.rel_append hzs hzs', List.flatten_append⟩

theorem Covers.of_append (h : Covers R (ts ++ us) ws) :
    ∃ as bs, Covers R ts as ∧ Covers R us bs ∧ as ++ bs = ws := by
  obtain ⟨zs, hzs, rfl⟩ := h
  obtain ⟨as, bs, rfl, has, hbs⟩ := PairedLists.exists_append hzs.flip
  exact ⟨as.flatten, bs.flatten, ⟨as, has.flip, rfl⟩, ⟨bs, hbs.flip, rfl⟩, List.flatten_append.symm⟩

/-- Every term stands for itself. -/
theorem Covers.self (h : ∀ t ∈ ts, R t [t]) : Covers R ts ts :=
  ⟨ts.map fun t => [t], List.forall₂_map_right_iff.mpr (List.forall₂_same.mpr h), by
    rw [← List.flatMap_def, List.flatMap_singleton']⟩

/-- What the relation says of operands it says of a run of them. -/
def HoldsOfRuns (ops : CollectionOps) (R : Term → List Term → Prop) : Prop :=
  ∀ xs ws, xs ≠ [] → AreKnown ops xs → Covers R xs ws → R (run ops xs) ws

/-- What the operands stand for, part by part. -/
theorem covers_parts (hrun : HoldsOfRuns ops R) (hpart : ∀ t ∈ ts, isPart ops t) (h : Covers R ts ws) :
    ∃ as bs cs, Covers R (ofOperands ops ts).left as ∧ Covers R (ofOperands ops ts).base bs ∧
      Covers R (ofOperands ops ts).right cs ∧ as ++ (bs ++ cs) = ws ∧ AreKnown ops (ofOperands ops ts).right := by
  induction ts using List.reverseRecOn generalizing ws with
  | nil =>
    obtain ⟨_, ⟨⟩, rfl⟩ := h
    exact ⟨[], [], [], .nil, .nil, .nil, rfl, List.forall_mem_nil _⟩
  | append_singleton ts t ih =>
    rw [List.forall_mem_append, List.forall_mem_singleton] at hpart
    obtain ⟨ws, zs, hts, ht, rfl⟩ := h.of_append
    obtain ⟨as, bs, cs, has, hbs, hcs, rfl, hknown⟩ := ih hpart.1 hts
    have hopen := isOpen_ofOperands hpart.1
    have hops := ofOperands_ops ops ts
    rw [ofOperands_concat]
    generalize ofOperands ops ts = p at has hbs hcs hknown hopen hops
    unfold pushed addItem
    split
    · -- what follows an unknown part begins anew
      refine ⟨as, bs ++ (cs ++ zs), [], has, ?_, .nil, by simp, List.forall_mem_nil _⟩
      rw [hops, List.append_assoc]
      refine hbs.append (Covers.append ?_ ht)
      unfold closed
      split
      · rename_i hnil
        rwa [List.isEmpty_iff.mp hnil] at hcs
      · rename_i hne
        exact .single (hrun _ cs (by simpa using hne) hknown hcs)
    · rename_i hresolved
      rw [isUnresolved_ops, hops, Bool.not_eq_true] at hresolved
      split
      · rename_i hnil
        have hbase := List.isEmpty_iff.mp hnil
        have hright := hopen.right hbase
        obtain ⟨_, hbs', rfl⟩ := hbs
        obtain ⟨_, hcs', rfl⟩ := hcs
        rw [hbase] at hbs'
        rw [hright] at hcs'
        cases hbs'
        cases hcs'
        have hb : Covers R p.base [] := by rw [hbase]; exact .nil
        have hr : Covers R p.right [] := by rw [hright]; exact .nil
        exact ⟨as ++ zs, [], [], has.append ht, hb, hr, by simp, hknown⟩
      · refine ⟨as, bs, cs ++ zs, has, hbs, hcs.append ht, by simp, ?_⟩
        exact List.forall_mem_append.mpr ⟨hknown, List.forall_mem_singleton.mpr ⟨hpart.2, hresolved⟩⟩

/-- What the operands stand for, child by child of their list. -/
theorem covers_children (hrun : HoldsOfRuns ops R) (hpart : ∀ t ∈ ts, isPart ops t) (h : Covers R ts ws) :
    Covers R (ofOperands ops ts).children ws := by
  obtain ⟨as, bs, cs, has, hbs, hcs, rfl, -⟩ := covers_parts hrun hpart h
  exact has.append (hbs.append hcs)

theorem areKnown_congr (h : Equal ts xs) (hxs : AreKnown ops xs) : AreKnown ops ts := by
  intro t ht
  obtain ⟨x, hx, htx⟩ := PairedLists.exists_mem h ht
  rw [isPart_congr htx, isUnresolved_congr rfl htx]
  exact hxs x hx

end ListParts

namespace Term
variable {labels : LabelTable} {ops : CollectionOps} {F t u : Term} {ts w : List Term} {Q : Term → Prop}

open ListParts (AreKnown Covers HoldsOfRuns isPart run)

/-! ### Flattening -/

/-- Terms as flattening leaves them, at whatever sorts. -/
abbrev IsFlattened (labels : LabelTable) : Term → Prop := IsFlat labels fun _ _ => True

/-- In every world the term is flattened to `F`. -/
def FlattensTo (labels : LabelTable) (t F : Term) : Prop := Turns (flatten labels) t (· = F)

/-- The term has flat operands, equal to those listed. -/
structure HasFlat (labels : LabelTable) (ops : CollectionOps) (w : List Term) (u : Term) : Prop where
  hasOperands : u.HasOperands ops
  flat : ∀ d ∈ u.operands ops, IsFlattened labels d
  equal : Equal (u.operands ops) w

/-- In every world the term is flattened to one with such operands. -/
def Supplies (labels : LabelTable) (ops : CollectionOps) (t : Term) (w : List Term) : Prop :=
  Turns (flatten labels) t (HasFlat labels ops w)

/-- The term is the list of flat operands that are equal to those listed. -/
inductive IsFlatList (labels : LabelTable) (ops : CollectionOps) (w : List Term) : Term → Prop where
  | intro {ws : List Term} (hpart : ∀ d ∈ ws, isPart ops d) (hflat : ∀ d ∈ ws, IsFlattened labels d)
      (hequal : Equal ws w) : IsFlatList labels ops w (listOf ops ws)

theorem IsFlatList.hasFlat (h : IsFlatList labels ops w u) : HasFlat labels ops w u := by
  obtain ⟨hpart, hflat, hequal⟩ := h
  refine ⟨hasOperands_listOf hpart, ?_, ?_⟩
  · rwa [operands_listOf hpart]
  · rwa [operands_listOf hpart]

theorem IsFlatList.isFlattened {l : String} {s : SortName} (hunits : labels.UnitsKeep fun _ _ => True)
    (hops : labels.operator? l s = some ops) (h : IsFlatList labels ops w u) : IsFlattened labels u := by
  obtain ⟨hpart, hflat, -⟩ := h
  exact isFlat_listOf hunits trivial hops hpart hflat

theorem IsFlatList.upTo (h : IsFlatList labels ops w u) : UpTo (· = listOf ops w) u := by
  obtain ⟨-, -, hequal⟩ := h
  exact ⟨_, listOf_congr hequal, rfl⟩

theorem FlattensTo.supplies (h : FlattensTo labels t F) (hF : IsFlattened labels F) (ops : CollectionOps) :
    Supplies labels ops t (F.operands ops) := by
  refine Turns.mono h ?_
  rintro _ rfl
  exact ⟨_, BEq.refl _, hF.hasOperands ops, hF.operands ops, .refl _⟩

/-- What is flattened term by term has the operands of all the terms. -/
theorem isFlatList_of_hasFlat {zs : List (List Term)} (h : List.Forall₂ (HasFlat labels ops) zs ts) :
    IsFlatList labels ops zs.flatten (listOf ops (ts.flatMap (operands ops))) := by
  have hall : ∀ t ∈ ts, ∃ z, HasFlat labels ops z t := fun t ht =>
    (PairedLists.exists_mem h.flip ht).imp fun _ hz => hz.2
  refine .intro (fun d hd => ?_) (fun d hd => ?_) ?_
  · obtain ⟨t, ht, hd⟩ := List.mem_flatMap.mp hd
    obtain ⟨z, hz⟩ := hall t ht
    exact hz.hasOperands.isPart_operands d hd
  · obtain ⟨t, ht, hd⟩ := List.mem_flatMap.mp hd
    obtain ⟨z, hz⟩ := hall t ht
    exact hz.flat d hd
  · rw [← List.flatMap_id]
    exact List.rel_flatMap h.flip fun _ _ hz => hz.equal

/-- A flat node stays. -/
theorem always_flattenNode_flat (hF : IsFlattened labels F) (hu : u == F) :
    Always (flattenNode labels u) (· == F) := by
  refine (always_flattenNode hu fun l args s ops hn hops c hc => ?_).mono fun v hv => BEq.trans hv hF.flatNode_beq
  rw [((hF.of_app hn).2 (operator?_cases hops).1).1] at hc
  cases hc

/-- An ordinary node over terms that are flattened is flattened to the node over the flat terms, if that one is
flat. -/
theorem flattensTo_ordinary {Fs : List Term} (hF : IsFlattened labels F) (h : t.IsOrdinary)
    (hc : List.Forall₂ (FlattensTo labels) t.children Fs) (hFs : ∀ c ∈ Fs, IsFlattened labels c)
    (heq : t.refilled Fs == F) : FlattensTo labels t F := by
  refine turns_ordinary (makes_flattenNode labels) flattenNode_of_var h
    (List.forall₂_map_right_iff (f := fun F u => u = F).mpr hc) (fun _ P hP u hu => ?_) fun vs hvs u hu => ?_
  · obtain ⟨c, hc, rfl⟩ := List.mem_map.mp hP
    exact (hu ▸ hFs c hc).hasProperItems
  · obtain rfl : vs = Fs := by
      have heq := (List.forall₂_map_left_iff.mp hvs).flip
      rwa [List.forall₂_eq_eq_eq] at heq
    exact (always_flattenNode_flat hF (BEq.trans hu heq)).mono fun v hv => ⟨F, hv, rfl⟩

/-- An application of an operator becomes the list of the operands of its arguments. -/
theorem turns_operator {l : String} {args : List Term} {s : SortName} (hn : t.node = .app (.const l) args s)
    (hops : labels.operator? l s = some ops) (hc : Covers (Supplies labels ops) args w) :
    Turns (flatten labels) t (IsFlatList labels ops w) := by
  obtain ⟨zs, hzs, rfl⟩ := hc
  have hchildren : t.children = args := by rw [children, hn]; rfl
  have hplain : SequenceParts.isPlain t := by rw [SequenceParts.isPlain, hn]
  have hord : t.IsOrdinary := by rw [IsOrdinary, hn]; trivial
  have hflats : List.Forall₂ (Turns (flatten labels)) t.children (zs.map (HasFlat labels ops)) :=
    List.forall₂_map_right_iff.mpr (hchildren ▸ hzs)
  refine turns_ordinary (makes_flattenNode labels) flattenNode_of_var hord hflats (fun hseq => ?_) fun vs hvs u hu => ?_
  · rw [hplain] at hseq
    cases hseq
  · have hvs := List.forall₂_map_left_iff.mp hvs
    rw [refilled_app hn] at hu
    have hflat : Always (flattenNode labels u) (· == listOf ops (vs.flatMap (operands ops))) := by
      have hnode : Always (flattenNode labels u) (· == flatNode labels _) :=
        always_flattenNode hu fun l' args' s' ops' hn' hops' c hc => by
          cases hn'
          cases hops.symm.trans hops'
          obtain ⟨z, -, hz⟩ := PairedLists.exists_mem hvs.flip hc
          exact hz.hasOperands
      unfold flatNode canonical at hnode
      simpa only [hops] using hnode
    exact hflat.mono fun v hv => ⟨_, hv, isFlatList_of_hasFlat hvs⟩

theorem flattenNode_of_list {left base right : List Term} (hn : t.node = .list ops left base right) :
    flattenNode labels t = pure t := by
  unfold flattenNode
  rw [hn]

theorem isOperator_of_operator? {l : String} {s : SortName} (hops : labels.operator? l s = some ops) :
    ops.isOperator := by
  obtain ⟨-, rfl⟩ := operator?_cases hops
  rfl

/-- A list of an operator becomes the list of the operands of its children, unless it is kept. -/
theorem turns_list {l : String} {s : SortName} (hunits : labels.UnitsKeep fun _ _ => True)
    (hops : labels.operator? l s = some ops) (hlist : t.isListOf ops)
    (hc : Covers (Supplies labels ops) t.children w)
    (hkept : ∀ zs vs, List.Forall₂ (HasFlat labels ops) zs vs → zs.flatten = w → Equal vs t.children → UpTo Q t)
    (hmade : ∀ u, IsFlatList labels ops w u → UpTo Q u) : Turns (flatten labels) t Q := by
  obtain ⟨zs, hzs, rfl⟩ := hc
  have hop := isOperator_of_operator? hops
  have htree : t.isTree := by
    obtain ⟨left, base, right, hn⟩ := node_of_isListOf hlist
    rw [isTree, hn]
    exact hop
  have hflats : List.Forall₂ (Turns (flatten labels)) t.children (zs.map (HasFlat labels ops)) :=
    List.forall₂_map_right_iff.mpr hzs
  refine turns_replaceUp (makes_flattenNode labels) flattenNode_of_var htree hflats (fun vs hvs hequal u hu => ?_)
    fun vs hvs t' us fs ht hus _ => ?_
  all_goals have hvs := (List.forall₂_map_left_iff (f := HasFlat labels ops)).mp hvs
  · obtain ⟨left, base, right, hn⟩ := node_of_isListOf ((ListParts.isListOf_congr hu).trans hlist)
    rw [flattenNode_of_list hn]
    exact .pure ((hkept zs vs hvs rfl hequal).congr hu)
  · obtain ⟨left, base, right, hn⟩ := node_of_isListOf ((ListParts.isListOf_congr ht).trans hlist)
    have hoperands : ∀ v ∈ vs, v.HasOperands ops := fun v hv =>
      (PairedLists.exists_mem hvs.flip hv).elim fun _ hz => hz.2.hasOperands
    have hflat := isFlatList_of_hasFlat hvs
    rw [rebuild_list hop hn]
    refine (always_listOf hop hus hoperands).mono fun r hr u hu => ?_
    exact (always_flattenNode_flat (hflat.isFlattened hunits hops) (BEq.trans hu hr)).mono
      fun v hv => (hmade _ hflat).congr hv

/-- A run has the operands of what is in it. -/
theorem hasFlat_run {zs : List (List Term)} (hknown : AreKnown ops ts)
    (h : List.Forall₂ (HasFlat labels ops) zs ts) : HasFlat labels ops zs.flatten (run ops ts) := by
  have hpart : ∀ t ∈ ts, isPart ops t := fun t ht => (hknown t ht).1
  have hlist := (isFlatList_of_hasFlat h).hasFlat
  rw [flatMap_operands_of_isPart hpart] at hlist
  have hoperands : (run ops ts).operands ops = ts := by
    rw [run, operands_of_list rfl, ListParts.operands, List.flatMap_nil, List.append_nil, List.append_nil]
  refine ⟨fun left base right hn => ?_, ?_, ?_⟩
  · cases hn
    exact ⟨ts, hpart, (ListParts.ofOperands_known hknown).symm⟩
  · rw [hoperands, ← operands_listOf hpart]
    exact hlist.flat
  · rw [hoperands, ← operands_listOf hpart]
    exact hlist.equal

theorem children_run (ops : CollectionOps) (ts : List Term) : (run ops ts).children = ts := by
  rw [run, children]
  exact (List.append_nil _)

/-- A run of known items is flattened item by item, and then it is a list or the only item. -/
theorem supplies_run {l : String} {s : SortName} (hunits : labels.UnitsKeep fun _ _ => True)
    (hops : labels.operator? l s = some ops) : HoldsOfRuns ops (Supplies labels ops) := by
  intro xs w hne hknown hc
  rw [← children_run ops xs] at hc
  refine turns_list hunits hops (decide_eq_true rfl) hc (fun zs vs hvs hw hequal => ?_)
    fun u hu => ⟨u, BEq.refl u, hu.hasFlat⟩
  rw [children_run] at hequal
  refine ⟨run ops vs, beq_of_alike (.list hequal.symm .nil .nil), hw ▸ hasFlat_run ?_ hvs⟩
  exact ListParts.areKnown_congr hequal hknown

/-- A flat list of an operator is flattened to itself. -/
theorem flattensTo_list {l : String} {s : SortName} (hunits : labels.UnitsKeep fun _ _ => True)
    (hops : labels.operator? l s = some ops) (hlist : (listOf ops w).isListOf ops)
    (hc : Covers (Supplies labels ops) (listOf ops w).children w) : FlattensTo labels (listOf ops w) (listOf ops w) :=
  turns_list hunits hops hlist hc (fun _ _ _ _ _ => ⟨_, BEq.refl _, rfl⟩) fun _ hu => hu.upTo

/-- The children of a list are those of its parts. -/
theorem children_listOf (hpart : ∀ d ∈ w, isPart ops d) (hlist : (listOf ops w).isListOf ops) :
    (listOf ops w).children = (ListParts.ofOperands ops w).children := by
  obtain ⟨left, base, right, hn⟩ := node_of_isListOf hlist
  obtain ⟨ws, hws, hparts⟩ := hasOperands_listOf hpart left base right hn
  have hw : ws = w := by
    rw [← ListParts.operands_ofOperands hws, ← hparts, ← operands_of_list hn, operands_listOf hpart]
  rw [children, hn, ← hw, ← hparts]
  rfl

/-- The children of a sequence are items. -/
theorem mem_children_sequenceOf {c : Term} (hplain : ∀ d ∈ w, SequenceParts.isPlain d)
    (hseq : SequenceParts.isPlain (sequenceOf w) = false) (hc : c ∈ (sequenceOf w).children) :
    c ∈ w ∨ ∃ v, c = canonical (.var v) := by
  refine mem_sequenceItems_sequenceOf hplain ?_
  obtain ⟨items, frame, hn⟩ := SequenceParts.node_of_not_isPlain hseq
  rw [children, hn] at hc
  rw [sequenceItems, hn]
  exact List.mem_append_left _ hc

/-- A flat node over flat children that stay stays itself. -/
theorem flattensTo_of_children (hF : IsFlattened labels F) (h : F.IsOrdinary)
    (hc : ∀ c ∈ F.children, FlattensTo labels c c ∧ IsFlattened labels c) : FlattensTo labels F F :=
  flattensTo_ordinary hF h (List.forall₂_same.mpr fun c hcm => (hc c hcm).1) (fun c hcm => (hc c hcm).2)
    (refilled_beq h (.refl _))

theorem flattensTo_leaf (h : F.node.isLeaf) : FlattensTo labels F F := by
  refine flattensTo_of_children (.leaf h) (isOrdinary_of_isLeaf h) ?_
  rw [children_of_isLeaf h]
  exact List.forall_mem_nil _

/-- A flat term is flattened to itself. -/
theorem flattensTo_self (hunits : labels.UnitsKeep fun _ _ => True) (hF : IsFlattened labels F) :
    FlattensTo labels F F := by
  have hself := hF
  induction hF with
  | leaf h => exact flattensTo_leaf h
  | frozen hn hf hargs ihf ihargs =>
    refine flattensTo_of_children hself (isOrdinary_of_app hn) ?_
    rw [children, hn]
    exact List.forall_mem_cons.mpr ⟨⟨ihf hf, hf⟩, fun a ha => ⟨ihargs a ha (hargs a ha), hargs a ha⟩⟩
  | app hn hs hl hargs ih =>
    refine flattensTo_of_children hself (isOrdinary_of_app hn) ?_
    rw [children, hn]
    exact fun a ha => ⟨ih a ha (hargs a ha), hargs a ha⟩
  | seq hplain hw h ih =>
    refine flattensTo_of_children hself (hself.hasProperItems.isOrdinary h) fun c hc => ?_
    rcases mem_children_sequenceOf hplain h hc with hc | ⟨v, rfl⟩
    · exact ⟨ih c hc (hw c hc), hw c hc⟩
    · exact ⟨flattensTo_leaf rfl, .leaf rfl⟩
  | list hops hpart hw h ih =>
    refine flattensTo_list hunits hops h ?_
    rw [children_listOf hpart h]
    refine ListParts.covers_children (supplies_run hunits hops) hpart (.self fun d hd => ?_)
    rw [← operands_of_isPart (hpart d hd)]
    exact (ih d hd (hw d hd)).supplies (hw d hd) _

end Term

end RuleCompiler
