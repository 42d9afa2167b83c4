import RuleCompiler.Proofs.Matching.Reads

/-! # Data

Ground terms that builders made, with nothing unknown in their collections. Their parts are data, and
so are the sequences, lists, maps, sets and groups of cells that are made of some of these parts. -/

namespace RuleCompiler

open Build (Always)

/-- Whether cells of one label have one multiplicity. -/
def CellParts.isUniform (cs : List Cell) : Bool :=
  cs.all fun c => cs.all fun d => c.label != d.label || c.multiplicity = d.multiplicity

theorem CellParts.isUniform_mono {cs ds : List Cell} (h : isUniform ds) (hsub : ∀ c ∈ cs, c ∈ ds) :
    isUniform cs :=
  List.all_eq_true.mpr fun c hc => List.all_eq_true.mpr fun d hd =>
    List.all_eq_true.mp (List.all_eq_true.mp h c (hsub c hc)) d (hsub d hd)

/-- Whether a node of a ground term has all its contents: a list, a map or a set has no unknown part,
and cells of one label have one multiplicity. -/
def Node.isKnown : Node Term → Bool
  | .list _ _ base _ | .map _ _ base | .set _ _ base => base.isEmpty
  | .cells cs _ => CellParts.isUniform cs
  | .var _ | .rewrite .. | .disjunction _ | .rightSides _ => false
  | _ => true

namespace Term
variable {t c : Term} {ops : CollectionOps}

/-- Ground terms that builders made, with nothing unknown in their collections. -/
def IsData (t : Term) : Prop := t.everyNode fun u => u.node.isNormal && u.node.isKnown

instance (t : Term) : Decidable t.IsData := inferInstanceAs (Decidable (_ = true))

namespace IsData

theorem isNormal (h : t.IsData) : t.node.isNormal :=
  ((Bool.and_eq_true _ _).mp (everyNode_iff.mp h).1).1

theorem isKnown (h : t.IsData) : t.node.isKnown :=
  ((Bool.and_eq_true _ _).mp (everyNode_iff.mp h).1).2

theorem child (h : t.IsData) (hc : c ∈ t.children) : c.IsData := (everyNode_iff.mp h).2.1 c hc

theorem frames_eq (h : t.IsData) : t.frames = [] := by
  rw [List.eq_nil_iff_forall_not_mem]
  intro v hv
  have hnode := (everyNode_iff.mp h).2.2 v hv
  simp [Node.isKnown] at hnode

theorem of_node {n : Node Term} (hn : t.node = n) (hnormal : n.isNormal) (hknown : n.isKnown)
    (hframes : n.frames = []) (hc : ∀ c ∈ n.children, c.IsData) : t.IsData := by
  subst hn
  refine everyNode_iff.mpr ⟨(Bool.and_eq_true _ _).mpr ⟨hnormal, hknown⟩, hc, ?_⟩
  rw [frames, hframes]
  exact List.forall_mem_nil _

theorem isCompared (h : t.IsData) : Matching.isCompared t := by
  refine Matching.isCompared_of_everyNode (everyNode_mono h fun u hu => ?_)
  rw [isVar, isRewrite, isDisjunction]
  cases hn : u.node <;> simp_all [Node.isKnown, Node.isVar]

theorem isGround (h : t.IsData) : t.isGround := Matching.isGround_of_isCompared h.isCompared

/-! ### Nodes of data -/

/-- Lists have known items only. -/
theorem list_eq {left base right : List Term} (h : t.IsData) (hn : t.node = .list ops left base right) :
    base = [] ∧ right = [] := by
  have hnormal := h.isNormal
  have hknown := h.isKnown
  rw [hn] at hnormal hknown
  obtain rfl : base = [] := List.isEmpty_iff.mp hknown
  refine ⟨rfl, ?_⟩
  simp only [Node.isNormal, ListParts.isNormal] at hnormal
  split at hnormal <;> simp_all

/-- Maps have entries only, in strict order of their keys. -/
theorem map_eq {es : List (Term × Term)} {base : List Term} (h : t.IsData)
    (hn : t.node = .map ops es base) : base = [] ∧ es.Pairwise fun a b => a.1.cmp b.1 = .lt := by
  have hnormal := h.isNormal
  have hknown := h.isKnown
  rw [hn] at hnormal hknown
  simp only [Node.isNormal, MapParts.isNormal, Bool.and_eq_true, decide_eq_true_eq] at hnormal
  exact ⟨List.isEmpty_iff.mp hknown, hnormal.1.1.1⟩

/-- Sets have elements only, in strict order. -/
theorem set_eq {es base : List Term} (h : t.IsData) (hn : t.node = .set ops es base) :
    base = [] ∧ es.Pairwise fun a b => a.cmp b = .lt := by
  have hnormal := h.isNormal
  have hknown := h.isKnown
  rw [hn] at hnormal hknown
  simp only [Node.isNormal, SetParts.isNormal, Bool.and_eq_true, decide_eq_true_eq] at hnormal
  exact ⟨List.isEmpty_iff.mp hknown, hnormal.1.1.1⟩

/-- Groups of cells have no frames, and stand in order. -/
theorem cells_eq {cs : List Cell} {frames : List Var} (h : t.IsData) (hn : t.node = .cells cs frames) :
    frames = [] ∧ CellParts.isUniform cs ∧
      cs.Pairwise fun c d => (CellParts.compareCells c d).isLE := by
  have hnormal := h.isNormal
  have hknown := h.isKnown
  have hframes := h.frames_eq
  rw [hn] at hnormal hknown
  rw [Term.frames, hn] at hframes
  exact ⟨hframes, hknown, decide_eq_true_eq.mp hnormal⟩

theorem entry {es : List (Term × Term)} {base : List Term} (h : t.IsData)
    (hn : t.node = .map ops es base) {e : Term × Term} (he : e ∈ es) : e.1.IsData ∧ e.2.IsData := by
  have hchild (c : Term) (hc : c ∈ [e.1, e.2]) : c.IsData := h.child (by
    rw [children, hn]
    exact List.mem_append_left _ (List.mem_flatMap.mpr ⟨e, he, hc⟩))
  exact ⟨hchild _ List.mem_cons_self, hchild _ (List.mem_cons_of_mem _ List.mem_cons_self)⟩

/-! ### Data with the same contents -/

variable {u : Term}

theorem beq_of_items (ht : t.IsData) (hu : u.IsData) (h : Equal t.items u.items) : t == u := by
  have hcases {t : Term} (ht : t.IsData) : t.items = [t] ∨
      t.node = .seq t.items none ∧ t.items.length ≠ 1 := by
    by_cases hseq : ∃ its frame, t.node = .seq its frame
    · obtain ⟨its, frame, hn⟩ := hseq
      obtain rfl := frame_of_isGround ht.isGround hn
      have hnormal := ht.isNormal
      rw [hn] at hnormal
      simp only [Node.isNormal, SequenceParts.isNormal, Bool.and_eq_true] at hnormal
      refine .inr ⟨by rw [items_of_seq hn, hn], ?_⟩
      rw [items_of_seq hn]
      simpa using hnormal.1
    · push Not at hseq
      exact .inl (items_of_not_seq ht.isGround hseq)
  rcases hcases ht with hself | ⟨hn, hlen⟩
  · rcases hcases hu with hself' | ⟨-, hlen'⟩
    · rw [hself, hself'] at h
      exact (List.forall₂_cons.mp h).1
    · exact absurd (h.length_eq.symm.trans (by rw [hself]; rfl)) hlen'
  · rcases hcases hu with hself' | ⟨hn', -⟩
    · exact absurd (h.length_eq.trans (by rw [hself']; rfl)) hlen
    · refine beq_of_alike ?_
      rw [hn, hn']
      exact .seq h

theorem beq_of_entries {es es' : List (Term × Term)} (ht : t.IsData) (hu : u.IsData)
    (hn : t.node = .map ops es []) (hn' : u.node = .map ops es' [])
    (h : (es.map entryCode).Perm (es'.map entryCode)) : t == u := by
  have hcodes : es.map entryCode = es'.map entryCode :=
    SortedList.map_eq_of_perm (r := fun a b : List Symbol × List Symbol => cmpCode a.1 b.1 = .lt)
      (fun h h' => (not_lt_lt h h').elim) h (ht.map_eq hn).2 (hu.map_eq hn').2
  refine beq_of_alike ?_
  rw [hn, hn']
  refine .map (PairedLists.of_map_eq (fun e e' h => ?_) hcodes) .nil
  rw [entryCode, entryCode, Prod.mk.injEq] at h
  exact ⟨beq_iff.mpr h.1, beq_iff.mpr h.2⟩

theorem beq_of_elements {es es' : List Term} (ht : t.IsData) (hu : u.IsData)
    (hn : t.node = .set ops es []) (hn' : u.node = .set ops es' [])
    (h : (es.map code).Perm (es'.map code)) : t == u := by
  have hle {a b : Term} (h : a.cmp b = .lt) : (a.cmp b).isLE := by rw [h]; rfl
  refine beq_of_alike ?_
  rw [hn, hn']
  exact .set (equal_of_sorted h ((ht.set_eq hn).2.imp hle) ((hu.set_eq hn').2.imp hle)) .nil

/-- Cells have the same places when these are told by label and content, and then the same
multiplicities. -/
theorem beq_of_cells {cs ds : List Cell} (ht : t.IsData) (hu : u.IsData)
    (hn : t.node = .cells cs []) (hn' : u.node = .cells ds [])
    (h : (cs.map fun c => (c.multiplicity, CellParts.cellCode c)).Perm
      (ds.map fun c => (c.multiplicity, CellParts.cellCode c))) : t == u := by
  obtain ⟨-, -, hsorted⟩ := ht.cells_eq hn
  obtain ⟨-, huniform, hsorted'⟩ := hu.cells_eq hn'
  have hperm : (cs.map CellParts.cellCode).Perm (ds.map CellParts.cellCode) := by
    have hmap := h.map Prod.snd
    rwa [List.map_map, List.map_map] at hmap
  have hcodes : cs.map CellParts.cellCode = ds.map CellParts.cellCode :=
    SortedList.map_eq_of_perm (r := fun a b => (CellParts.compareCodes a b).isLE)
      CellParts.isLE_antisymm hperm hsorted hsorted'
  have hpairs : List.Forall₂ (fun c d : Cell => CellParts.cellCode c = CellParts.cellCode d) cs ds :=
    PairedLists.of_map_eq (fun _ _ h => h) hcodes
  refine beq_of_alike ?_
  rw [hn, hn']
  refine .cells (PairedLists.imp_mem hpairs fun c hc d hd hcd => ?_)
  obtain ⟨d', hd', hcd'⟩ := List.mem_map.mp (h.mem_iff.mp (List.mem_map_of_mem hc))
  simp only [CellParts.cellCode, Prod.mk.injEq] at hcd hcd'
  refine ⟨hcd.1, ?_, beq_iff.mpr hcd.2⟩
  have hlabel := List.all_eq_true.mp (List.all_eq_true.mp huniform d' hd') d hd
  rw [hcd'.2.1, hcd.1] at hlabel
  rw [← hcd'.1]
  simpa using hlabel

/-! ### Parts put together -/

/-- The items of data are data, and no sequences. -/
theorem items (h : t.IsData) : ∀ c ∈ t.items, c.IsData ∧ c.items = [c] :=
  Matching.items_all child isGround isNormal h

theorem size_items (h : t.IsData) (hc : c ∈ t.items) : c.size ≤ t.size := by
  by_cases hseq : ∃ its frame, t.node = .seq its frame
  · obtain ⟨its, frame, hn⟩ := hseq
    rw [items_of_seq hn] at hc
    exact Nat.le_of_lt (size_child (by rwa [children, hn]))
  · push Not at hseq
    rw [items_of_not_seq h.isGround hseq, List.mem_singleton] at hc
    exact Nat.le_of_eq (congrArg size hc)

theorem always_sequenceFrom {ts : List Term} (h : ∀ t ∈ ts, t.IsData ∧ t.items = [t]) :
    Always (Term.sequenceFrom ts none) fun t => t.IsData ∧ t.items = ts := by
  have hitems : ts.flatMap Term.items = ts := by
    rw [List.flatMap_congr fun t ht => (h t ht).2, List.flatMap_singleton']
  have hnew (hlen : ts.length ≠ 1) : Always (Term.new (.seq ts none)) fun t =>
      t.IsData ∧ t.items = ts := by
    refine (always_new _).mono fun u hu => ⟨.of_node hu ?_ rfl rfl fun c hc => (h c hc).1,
      items_of_seq hu⟩
    simp only [Node.isNormal, SequenceParts.isNormal, Bool.and_eq_true, List.all_eq_true]
    refine ⟨by simpa using hlen, fun c hc => ?_⟩
    split
    · rename_i its frame hn
      obtain ⟨hdata, hself⟩ := h c hc
      have hnormal := hdata.isNormal
      rw [items_of_seq hn] at hself
      rw [hn, hself, frame_of_isGround hdata.isGround hn] at hnormal
      simp [Node.isNormal, SequenceParts.isNormal] at hnormal
    · rfl
  rw [Term.sequenceFrom, Option.toList_none, List.mapM_nil, pure_bind, List.append_nil,
    sequence_of_isGround fun t ht => (h t ht).1.isGround, hitems]
  rcases ts with _ | ⟨t, _ | _⟩
  · exact hnew (by simp)
  · exact .pure (h t List.mem_cons_self)
  · exact hnew (by simp)

theorem always_listOf {ts : List Term} (hop : ops.isOperator = false) (h : ∀ t ∈ ts, t.IsData) :
    Always (Matching.listOf ops ts) fun t => t.IsData ∧ t.node = .list ops ts [] [] := by
  rw [Matching.listOf, ListParts.foldl_addItem rfl, List.nil_append,
    ListParts.build_eq fun hop' => by rw [hop] at hop'; cases hop']
  refine (always_new _).mono fun u hu => ⟨.of_node hu ?_ rfl rfl fun c hc => h c ?_, hu⟩
  · simp [Node.isNormal, ListParts.isNormal, hop]
  · simpa [Node.children] using hc

theorem always_map {es : List (Term × Term)} (hsorted : es.Pairwise fun a b => a.1.cmp b.1 = .lt)
    (h : ∀ e ∈ es, e.1.IsData ∧ e.2.IsData) :
    Always (MapParts.build { ops, entries := es }) fun t => t.IsData ∧ t.node = .map ops es [] := by
  rw [MapParts.build_eq]
  refine (always_new _).mono fun u hu => ⟨.of_node hu ?_ rfl rfl fun c hc => ?_, hu⟩
  · simp [Node.isNormal, MapParts.isNormal, hsorted]
  · simp only [Node.children, List.append_nil, List.mem_flatMap] at hc
    obtain ⟨e, he, hc⟩ := hc
    rcases List.mem_pair.mp hc with rfl | rfl
    · exact (h e he).1
    · exact (h e he).2

theorem always_set {es : List Term} (hsorted : es.Pairwise fun a b => a.cmp b = .lt)
    (h : ∀ t ∈ es, t.IsData) :
    Always (SetParts.build { ops, elements := es }) fun t => t.IsData ∧ t.node = .set ops es [] := by
  have hbuild : SetParts.build { ops, elements := es } = Term.new (.set ops es []) := by
    cases es <;> rfl
  rw [hbuild]
  refine (always_new _).mono fun u hu => ⟨.of_node hu ?_ rfl rfl fun c hc => h c ?_, hu⟩
  · simp [Node.isNormal, SetParts.isNormal, hsorted]
  · simpa [Node.children] using hc

theorem always_cells {cs : List Cell} (huniform : CellParts.isUniform cs)
    (h : ∀ c ∈ cs, c.content.IsData) : Always (CellParts.build { cells := cs }) fun t =>
      t.IsData ∧ t.node = .cells (SortedList.sort CellParts.compareCells cs) [] := by
  rw [CellParts.build_eq]
  refine (always_new _).mono fun u hu => ⟨.of_node hu ?_ ?_ rfl fun c hc => ?_, hu⟩
  · exact decide_eq_true (SortedList.sorted_sort cs)
  · simpa [Node.isKnown, CellParts.isUniform] using huniform
  · obtain ⟨d, hd, rfl⟩ := List.mem_map.mp hc
    exact h d (SortedList.mem_sort.mp hd)

end IsData

end Term

end RuleCompiler
