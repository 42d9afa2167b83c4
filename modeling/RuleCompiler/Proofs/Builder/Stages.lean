import RuleCompiler.Proofs.SortedList
import RuleCompiler.Proofs.Stage
import RuleCompiler.Term.Walk

/-! # What builders keep from stage to stage

Builders open collections up, put parts together and make new nodes of them. So a property that
collections hand down to their parts, and that a new node has when its parts do, is one of everything
they build, and of every node that is made again from other children. The property may depend on the
stage, as long as it stays true at later ones. -/

namespace RuleCompiler

open Build (Leads)

namespace Node
variable {α : Type}

/-- Whether builders open the node up. -/
def isCollection : Node α → Bool
  | seq .. | list .. | map .. | set .. | cells .. => true
  | _ => false

/-- Whether builders make such nodes: applications, sequences of more than a single item, and
collections, of cells in the order of their labels. -/
def isBuilt : Node α → Bool
  | seq [_] none => false
  | app .. | seq .. | list .. | map .. | set .. => true
  | cells cs _ => cs.Pairwise fun a b => (compare a.label b.label).isLE
  | _ => false

/-- Whether the node has neither children nor frames, whatever its contents. -/
def isLeaf : Node α → Bool
  | token .. | var _ | hole | labelValue _ => true
  | _ => false

/-- Whether the node stands for several terms: a rewrite, a disjunction or right-hand sides. -/
def isChoice : Node α → Bool
  | rewrite .. | disjunction _ | rightSides _ => true
  | _ => false

end Node

theorem Term.children_of_isLeaf {t : Term} (h : t.node.isLeaf) : t.children = [] := by
  unfold children
  cases hn : t.node <;> simp_all [Node.isLeaf, Node.children]

theorem Term.frames_of_isLeaf {t : Term} (h : t.node.isLeaf) : t.frames = [] := by
  unfold frames
  cases hn : t.node <;> simp_all [Node.isLeaf, Node.frames]

/-- Canonical nodes have no children. -/
theorem Term.children_of_isCanonical {t : Term} (h : t.isCanonical) : t.children = [] := by
  unfold isCanonical Node.isCanonical at h
  rw [children]
  split at h <;> simp_all [Node.children]

variable {ι : Type} [Stage ι]

/-- From the stage `n` on, `P` is kept by builders; `Q` is what it says of frames. -/
structure Keeps (n : ι) (P : ι → Term → Prop) (Q : Var → Prop) : Prop where
  mono : ∀ {k m : ι} {t : Term}, k ≤ m → P k t → P m t
  part : ∀ {k : ι} {t c : Term}, P k t → t.node.isCollection → c ∈ t.children → P k c
  frame : ∀ {k : ι} {t : Term} {v : Var}, P k t → v ∈ t.frames → Q v
  var : ∀ {k : ι} {t : Term} {v : Var}, P k t → t.node = .var v → Q v
  newVar : ∀ {k : ι} {v : Var}, n ≤ k → Q v → Leads k P (Term.var v)
  new : ∀ {k : ι} {m : Node Term}, n ≤ k → m.isBuilt → (∀ c ∈ m.children, P k c) →
    (∀ v ∈ m.frames, Q v) → Leads k P (Term.new m)

variable {n k : ι} {P : ι → Term → Prop} {Q : Var → Prop} {R : Term → Prop}

theorem Keeps.all_mono (h : Keeps n P Q) {m : ι} {ts : List Term} (hm : k ≤ m) (hts : ∀ t ∈ ts, P k t) :
    ∀ t ∈ ts, P m t :=
  fun t ht => h.mono hm (hts t ht)

theorem Keeps.unitTerm (h : Keeps n P Q) (hk : n ≤ k) (ops : CollectionOps) : Leads k P (pure ops.unitTerm) :=
  h.new (m := .app (.const ops.unit) [] ops.sort) hk rfl (List.forall_mem_nil _) (List.forall_mem_nil _)

/-! ### Sequences -/

namespace SequenceParts

/-- Every part has the property. -/
structure Holds (R : Term → Prop) (Q : Var → Prop) (p : SequenceParts) : Prop where
  items : ∀ t ∈ p.items, R t
  frame : ∀ v ∈ p.frame, Q v

variable {p : SequenceParts} {t : Term}

theorem holds_empty (R : Term → Prop) (Q : Var → Prop) : Holds R Q {} :=
  ⟨List.forall_mem_nil _, fun v hv => by cases hv⟩

theorem leads_allItems (h : Keeps n P Q) (hk : n ≤ k) (hp : p.Holds (P k) Q) :
    Leads k (fun k ts => ∀ t ∈ ts, P k t) p.allItems := by
  unfold allItems
  split
  · exact .pure hp.items
  · rename_i v hv
    refine (h.newVar hk (hp.frame v hv)).bind fun m u hm hu => .pure ?_
    exact List.forall_mem_append.mpr ⟨h.all_mono hm hp.items, List.forall_mem_singleton.mpr hu⟩

theorem leads_add (h : Keeps n P Q) (hk : n ≤ k) (hp : p.Holds (P k) Q) (ht : P k t) :
    Leads k (fun k => Holds (P k) Q) (p.add t) := by
  have hput {m : ι} (hm : k ≤ m) {ts : List Term} (hts : ∀ t ∈ ts, P m t) :
      Holds (P m) Q ⟨ts ++ [t], none⟩ :=
    ⟨List.forall_mem_append.mpr ⟨hts, List.forall_mem_singleton.mpr (h.mono hm ht)⟩,
      fun v hv => by cases hv⟩
  unfold add
  split
  · exact .pure hp
  · rename_i items frame _ hn
    refine (leads_allItems h hk hp).bind fun m ts hm hts => .pure ⟨?_, fun v hv => h.frame ht ?_⟩
    · refine List.forall_mem_append.mpr ⟨hts, h.all_mono hm fun c hc => ?_⟩
      refine h.part ht (by rw [hn]; rfl) ?_
      rwa [Term.children, hn]
    · rw [Term.frames, hn]
      exact Option.mem_toList.mpr hv
  · rename_i v hn
    refine (leads_allItems h hk hp).bind fun m ts hm hts => .pure ?_
    split
    · refine ⟨hts, ?_⟩
      rintro _ ⟨⟩
      exact h.var ht hn
    · exact hput hm hts
  · exact (leads_allItems h hk hp).bind fun m ts hm hts => .pure (hput hm hts)

theorem leads_build (h : Keeps n P Q) (hk : n ≤ k) (hp : p.Holds (P k) Q) : Leads k P p.build := by
  unfold build
  split
  · exact h.newVar hk (hp.frame _ rfl)
  · exact .pure (hp.items _ (List.mem_singleton_self _))
  · rename_i items frame _ hone
    refine h.new hk ?_ hp.items fun v hv => hp.frame v (Option.mem_toList.mp hv)
    unfold Node.isBuilt
    split <;> simp_all

end SequenceParts

theorem Term.leads_sequence (h : Keeps n P Q) (hk : n ≤ k) {ts : List Term} (hts : ∀ t ∈ ts, P k t) :
    Leads k P (Term.sequence ts) := by
  refine Leads.bind (p := fun k => SequenceParts.Holds (P k) Q) ?_ fun m p hm hp =>
    SequenceParts.leads_build h (le_trans hk hm) hp
  exact Leads.foldlM (SequenceParts.holds_empty _ Q) fun m p hm hp t ht =>
    SequenceParts.leads_add h (le_trans hk hm) hp (h.mono hm (hts t ht))

theorem Term.leads_sequenceFrom (h : Keeps n P Q) (hk : n ≤ k) {ts : List Term} {frame : Option Var}
    (hts : ∀ t ∈ ts, P k t) (hframe : ∀ v ∈ frame, Q v) : Leads k P (Term.sequenceFrom ts frame) := by
  have hvars : Leads k (fun k vs => ∀ v ∈ vs, P k v) (frame.toList.mapM Term.var) :=
    Leads.mapM_all (r := P) h.mono fun v hv m hm =>
      h.newVar (le_trans hk hm) (hframe v (Option.mem_toList.mp hv))
  refine hvars.bind fun m vs hm hvs => Term.leads_sequence h (le_trans hk hm) ?_
  exact List.forall_mem_append.mpr ⟨h.all_mono hm hts, hvs⟩

/-! ### Lists -/

namespace ListParts

/-- Every part has the property. -/
structure Holds (R : Term → Prop) (p : ListParts) : Prop where
  left : ∀ t ∈ p.left, R t
  base : ∀ t ∈ p.base, R t
  right : ∀ t ∈ p.right, R t

variable {p : ListParts} {t : Term}

theorem Holds.at_later (h : Keeps n P Q) {m : ι} (hm : k ≤ m) (hp : p.Holds (P k)) : p.Holds (P m) :=
  ⟨h.all_mono hm hp.left, h.all_mono hm hp.base, h.all_mono hm hp.right⟩

theorem holds_empty (R : Term → Prop) (ops : CollectionOps) : Holds R { ops } :=
  ⟨List.forall_mem_nil _, List.forall_mem_nil _, List.forall_mem_nil _⟩

theorem holds_addItem (hp : p.Holds R) (ht : R t) : (p.addItem t).Holds R := by
  have hone {ts : List Term} (hts : ∀ t ∈ ts, R t) : ∀ u ∈ ts ++ [t], R u :=
    List.forall_mem_append.mpr ⟨hts, List.forall_mem_singleton.mpr ht⟩
  unfold addItem
  split
  · exact ⟨hone hp.left, hp.base, hp.right⟩
  · exact ⟨hp.left, hp.base, hone hp.right⟩

theorem holds_addItems {ts : List Term} (hp : p.Holds R) (hts : ∀ t ∈ ts, R t) :
    (ts.foldl addItem p).Holds R := by
  induction ts generalizing p with
  | nil => exact hp
  | cons t ts ih =>
    obtain ⟨ht, hts⟩ := List.forall_mem_cons.mp hts
    exact ih (holds_addItem hp ht) hts

/-- The parts together are the children of the list. -/
theorem holds_iff : p.Holds R ↔ ∀ t ∈ p.left ++ (p.base ++ p.right), R t := by
  simp only [List.forall_mem_append]
  exact ⟨fun h => ⟨h.left, h.base, h.right⟩, fun h => ⟨h.1, h.2.1, h.2.2⟩⟩

theorem parts_of_node (h : Keeps n P Q) {ops : CollectionOps} {left base right : List Term}
    (hn : t.node = .list ops left base right) (ht : P k t) : Holds (P k) { ops, left, base, right } := by
  refine holds_iff.mpr fun c hc => h.part ht (by rw [hn]; rfl) ?_
  rwa [Term.children, hn]

theorem leads_new (h : Keeps n P Q) (hk : n ≤ k) (hp : p.Holds (P k)) :
    Leads k P (Term.new (.list p.ops p.left p.base p.right)) :=
  h.new hk rfl (holds_iff.mp hp) (List.forall_mem_nil _)

theorem leads_closeRight (h : Keeps n P Q) (hk : n ≤ k) (hp : p.Holds (P k)) :
    Leads k (fun k => Holds (P k)) p.closeRight := by
  unfold closeRight
  refine .ite (fun _ => .pure hp) fun _ => ?_
  have hrun : Leads k P (Term.new (.list p.ops p.right [] [])) :=
    leads_new h hk (p := { ops := p.ops, left := p.right })
      ⟨hp.right, List.forall_mem_nil _, List.forall_mem_nil _⟩
  refine hrun.bind fun m items hm hitems => .pure ⟨h.all_mono hm hp.left, ?_, List.forall_mem_nil _⟩
  exact List.forall_mem_append.mpr ⟨h.all_mono hm hp.base, List.forall_mem_singleton.mpr hitems⟩

theorem leads_addBase (h : Keeps n P Q) (hk : n ≤ k) (hp : p.Holds (P k)) (ht : P k t) :
    Leads k (fun k => Holds (P k)) (p.addBase t) := by
  refine (leads_closeRight h hk hp).bind fun m q hm hq => .pure ⟨hq.left, ?_, hq.right⟩
  exact List.forall_mem_append.mpr ⟨hq.base, List.forall_mem_singleton.mpr (h.mono hm ht)⟩

theorem leads_addOperand (h : Keeps n P Q) (hk : n ≤ k) (hp : p.Holds (P k)) (ht : P k t) :
    Leads k (fun k => Holds (P k)) (p.addOperand t) :=
  .ite (fun _ => leads_addBase h hk hp ht) fun _ => .pure (holds_addItem hp ht)

theorem leads_concat (h : Keeps n P Q) (hk : n ≤ k) (hp : p.Holds (P k)) (ht : P k t) :
    Leads k (fun k => Holds (P k)) (p.concat t) := by
  unfold concat
  split
  · rename_i ops left base right hn
    have hq := parts_of_node h hn ht
    refine .ite (fun _ => ?_) fun _ => leads_addOperand h hk hp ht
    have hleft := holds_addItems hp hq.left
    refine .ite (fun _ => .pure hleft) fun _ => ?_
    refine (leads_closeRight h hk hleft).bind fun m q hm hq' => .pure ?_
    have hq := hq.at_later h hm
    exact ⟨hq'.left, List.forall_mem_append.mpr ⟨hq'.base, hq.base⟩,
      List.forall_mem_append.mpr ⟨hq'.right, hq.right⟩⟩
  · exact .ite (fun _ => .pure hp) fun _ => leads_addOperand h hk hp ht

theorem leads_build (h : Keeps n P Q) (hk : n ≤ k) (hp : p.Holds (P k)) : Leads k P p.build := by
  have hnew {p : ListParts} (hp : p.Holds (P k)) := leads_new h hk hp
  obtain ⟨ops, left, base, right⟩ := p
  unfold build
  split
  · exact .pure (hp.base _ (by simp_all))
  · refine .ite (fun _ => h.unitTerm hk ops) fun _ => hnew (p := { ops, right }) ?_
    exact ⟨List.forall_mem_nil _, List.forall_mem_nil _, hp.right⟩
  · rename_i t hleft _
    refine .ite (fun _ => .pure (hp.left _ (by simp_all))) fun _ => ?_
    refine hnew (p := { ops, left := [t], right }) ⟨?_, List.forall_mem_nil _, hp.right⟩
    simp_all [hp.left]
  · exact hnew hp

end ListParts

/-! ### Maps -/

namespace MapParts

/-- Every part has the property. -/
structure Holds (R : Term → Prop) (p : MapParts) : Prop where
  keys : ∀ e ∈ p.entries, R e.1
  values : ∀ e ∈ p.entries, R e.2
  base : ∀ t ∈ p.base, R t

variable {p : MapParts} {t : Term}

theorem holds_empty (R : Term → Prop) (ops : CollectionOps) : Holds R { ops } :=
  ⟨List.forall_mem_nil _, List.forall_mem_nil _, List.forall_mem_nil _⟩

theorem holds_put {key value : Term} (hp : p.Holds R) (hk : R key) (hv : R value) :
    (p.put key value).Holds R := by
  refine ⟨fun e he => ?_, fun e he => ?_, hp.base⟩
  · rcases (SortedList.mem_of_mem_put he).1 with hkey | ⟨f, hf, hkey⟩
    · exact hkey ▸ hk
    · exact hkey ▸ hp.keys f hf
  · rcases (SortedList.mem_of_mem_put he).2 with hvalue | ⟨f, hf, hvalue⟩
    · exact hvalue ▸ hv
    · exact hvalue ▸ hp.values f hf

theorem holds_putAll {es : List (Term × Term)} (hp : p.Holds R) (hes : ∀ e ∈ es, R e.1 ∧ R e.2) :
    (es.foldl (fun p e => p.put e.1 e.2) p).Holds R := by
  induction es generalizing p with
  | nil => exact hp
  | cons e es ih =>
    obtain ⟨he, hes⟩ := List.forall_mem_cons.mp hes
    exact ih (holds_put hp he.1 he.2) hes

theorem Holds.addBase {ts : List Term} (hp : p.Holds R) (hts : ∀ t ∈ ts, R t) :
    Holds R { p with base := p.base ++ ts } :=
  ⟨hp.keys, hp.values, List.forall_mem_append.mpr ⟨hp.base, hts⟩⟩

/-- The parts together are the children of the map. -/
theorem holds_iff :
    p.Holds R ↔ ∀ t ∈ (p.entries.flatMap fun e => [e.1, e.2]) ++ p.base, R t := by
  rw [List.forall_mem_append]
  constructor
  · refine fun h => ⟨fun c hc => ?_, h.base⟩
    obtain ⟨e, he, hc⟩ := List.mem_flatMap.mp hc
    rcases List.mem_pair.mp hc with rfl | rfl
    · exact h.keys e he
    · exact h.values e he
  · rintro ⟨h, hbase⟩
    have hentry : ∀ e ∈ p.entries, ∀ c ∈ [e.1, e.2], R c :=
      fun e he c hc => h c (List.mem_flatMap.mpr ⟨e, he, hc⟩)
    exact ⟨fun e he => hentry e he _ List.mem_cons_self,
      fun e he => hentry e he _ (List.mem_cons_of_mem _ List.mem_cons_self), hbase⟩

theorem parts_of_node (h : Keeps n P Q) {ops : CollectionOps} {entries : List (Term × Term)}
    {base : List Term} (hn : t.node = .map ops entries base) (ht : P k t) :
    Holds (P k) { ops, entries, base } := by
  refine holds_iff.mpr fun c hc => h.part ht (by rw [hn]; rfl) ?_
  rwa [Term.children, hn]

theorem keeps_concat (h : Keeps n P Q) (hp : p.Holds (P k)) (ht : P k t) :
    (p.concat t).Holds (P k) := by
  have hone := hp.addBase (List.forall_mem_singleton.mpr ht)
  unfold concat
  split
  · rename_i ops entries base hn
    have hq := parts_of_node h hn ht
    split
    · exact (holds_putAll hp fun e he => ⟨hq.keys e he, hq.values e he⟩).addBase hq.base
    · exact hone
  · split
    · exact hp
    · exact hone

theorem keeps_concatAll (h : Keeps n P Q) {ts : List Term} (hp : p.Holds (P k))
    (hts : ∀ t ∈ ts, P k t) :
    (ts.foldl concat p).Holds (P k) := by
  induction ts generalizing p with
  | nil => exact hp
  | cons t ts ih =>
    obtain ⟨ht, hts⟩ := List.forall_mem_cons.mp hts
    exact ih (keeps_concat h hp ht) hts

theorem leads_build (h : Keeps n P Q) (hk : n ≤ k) (hp : p.Holds (P k)) : Leads k P p.build := by
  unfold build
  split
  · exact .pure (hp.base _ (by simp_all))
  · refine h.new hk rfl ?_ (List.forall_mem_nil _)
    refine (holds_iff (p := ⟨p.ops, p.entries, SortedList.sort Term.cmp p.base⟩)).mp
      ⟨hp.keys, hp.values, fun t ht => ?_⟩
    exact hp.base t (SortedList.mem_sort.mp ht)

end MapParts

/-! ### Sets -/

namespace SetParts

/-- Every part has the property. -/
structure Holds (R : Term → Prop) (p : SetParts) : Prop where
  elements : ∀ t ∈ p.elements, R t
  base : ∀ t ∈ p.base, R t

variable {p : SetParts} {t : Term}

theorem holds_empty (R : Term → Prop) (ops : CollectionOps) : Holds R { ops } :=
  ⟨List.forall_mem_nil _, List.forall_mem_nil _⟩

theorem holds_add (hp : p.Holds R) (ht : R t) : (p.add t).Holds R := by
  refine ⟨fun c hc => ?_, hp.base⟩
  rcases SortedList.mem_of_mem_addNew hc with rfl | hc
  · exact ht
  · exact hp.elements c hc

theorem holds_addAll {ts : List Term} (hp : p.Holds R) (hts : ∀ t ∈ ts, R t) :
    (ts.foldl add p).Holds R := by
  induction ts generalizing p with
  | nil => exact hp
  | cons t ts ih =>
    obtain ⟨ht, hts⟩ := List.forall_mem_cons.mp hts
    exact ih (holds_add hp ht) hts

theorem Holds.addBase {ts : List Term} (hp : p.Holds R) (hts : ∀ t ∈ ts, R t) :
    Holds R { p with base := p.base ++ ts } :=
  ⟨hp.elements, List.forall_mem_append.mpr ⟨hp.base, hts⟩⟩

/-- The parts together are the children of the set. -/
theorem holds_iff : p.Holds R ↔ ∀ t ∈ p.elements ++ p.base, R t := by
  rw [List.forall_mem_append]
  exact ⟨fun h => ⟨h.elements, h.base⟩, fun h => ⟨h.1, h.2⟩⟩

theorem parts_of_node (h : Keeps n P Q) {ops : CollectionOps} {elements base : List Term}
    (hn : t.node = .set ops elements base) (ht : P k t) : Holds (P k) { ops, elements, base } := by
  refine holds_iff.mpr fun c hc => h.part ht (by rw [hn]; rfl) ?_
  rwa [Term.children, hn]

theorem keeps_concat (h : Keeps n P Q) (hp : p.Holds (P k)) (ht : P k t) :
    (p.concat t).Holds (P k) := by
  have hone := hp.addBase (List.forall_mem_singleton.mpr ht)
  unfold concat
  split
  · rename_i ops elements base hn
    have hq := parts_of_node h hn ht
    split
    · exact (holds_addAll hp hq.elements).addBase hq.base
    · exact hone
  · split
    · exact hp
    · exact hone

theorem keeps_concatAll (h : Keeps n P Q) {ts : List Term} (hp : p.Holds (P k))
    (hts : ∀ t ∈ ts, P k t) :
    (ts.foldl concat p).Holds (P k) := by
  induction ts generalizing p with
  | nil => exact hp
  | cons t ts ih =>
    obtain ⟨ht, hts⟩ := List.forall_mem_cons.mp hts
    exact ih (keeps_concat h hp ht) hts

theorem leads_build (h : Keeps n P Q) (hk : n ≤ k) (hp : p.Holds (P k)) : Leads k P p.build := by
  unfold build
  split
  · exact .pure (hp.base _ (by simp_all))
  · refine h.new hk rfl ?_ (List.forall_mem_nil _)
    refine (holds_iff (p := ⟨p.ops, p.elements, SortedList.sort Term.cmp p.base⟩)).mp
      ⟨hp.elements, fun t ht => ?_⟩
    exact hp.base t (SortedList.mem_sort.mp ht)

end SetParts

/-! ### Cells -/

namespace CellParts

/-- Whether one cell may stand before another. -/
def InOrder (c d : Cell) : Prop := (compare c.label d.label).isLE

theorem inOrder_trans {c d e : Cell} (h : InOrder c d) (h' : InOrder d e) : InOrder c e :=
  Std.TransCmp.isLE_trans h h'

theorem inOrder_of_lt {c d : Cell} (h : compareCells d c = .lt) : InOrder d c := by
  rw [compareCells, Ordering.then_eq_lt] at h
  rcases h with h | ⟨h, -⟩ <;> rw [InOrder, h] <;> rfl

theorem inOrder_of_not_lt {c d : Cell} (h : compareCells d c ≠ .lt) : InOrder c d := by
  rw [compareCells, ne_eq, Ordering.then_eq_lt, not_or] at h
  exact SortedList.isLE_of_not_lt h.1

theorem inOrder_sort (cs : List Cell) : (SortedList.sort compareCells cs).Pairwise InOrder :=
  SortedList.pairwise_sort (R := InOrder) inOrder_trans inOrder_of_lt inOrder_of_not_lt cs

/-- Every part has the property. -/
structure Holds (R : Term → Prop) (Q : Var → Prop) (p : CellParts) : Prop where
  contents : ∀ c ∈ p.cells, R c.content
  frames : ∀ v ∈ p.frames, Q v

variable {p : CellParts} {t : Term}

theorem holds_empty (R : Term → Prop) (Q : Var → Prop) : Holds R Q {} :=
  ⟨List.forall_mem_nil _, List.forall_mem_nil _⟩

theorem holds_put {label : String} {multiplicity : Multiplicity} (hp : p.Holds R Q) (ht : R t) :
    (p.put label multiplicity t).Holds R Q :=
  ⟨List.forall_mem_append.mpr ⟨hp.contents, List.forall_mem_singleton.mpr ht⟩, hp.frames⟩

theorem parts_of_node (h : Keeps n P Q) {cs : List Cell} {frames : List Var}
    (hn : t.node = .cells cs frames) (ht : P k t) : Holds (P k) Q ⟨cs, frames⟩ := by
  refine ⟨fun c hc => h.part ht (by rw [hn]; rfl) ?_, fun v hv => h.frame ht ?_⟩
  · rw [Term.children, hn]
    exact List.mem_map_of_mem hc
  · rwa [Term.frames, hn]

theorem leads_concat (h : Keeps n P Q) (hp : p.Holds (P k) Q) (ht : P k t) :
    Leads k (fun k => Holds (P k) Q) (p.concat t) := by
  unfold concat
  split
  · rename_i cs frames hn
    have hq := parts_of_node h hn ht
    exact .pure ⟨List.forall_mem_append.mpr ⟨hp.contents, hq.contents⟩,
      List.forall_mem_append.mpr ⟨hp.frames, hq.frames⟩⟩
  · rename_i v hn
    exact .pure ⟨hp.contents, List.forall_mem_append.mpr
      ⟨hp.frames, List.forall_mem_singleton.mpr (h.var ht hn)⟩⟩
  · exact .throw _

theorem leads_build (h : Keeps n P Q) (hk : n ≤ k) (hp : p.Holds (P k) Q) : Leads k P p.build := by
  unfold build
  split
  · exact h.newVar hk (hp.frames _ (by simp_all))
  · refine h.new hk (decide_eq_true (inOrder_sort p.cells)) (fun c hc => ?_) fun v hv => ?_
    · obtain ⟨d, hd, rfl⟩ := List.mem_map.mp hc
      exact hp.contents d (SortedList.mem_sort.mp hd)
    · exact hp.frames v (SortedList.mem_sort.mp hv)

end CellParts

theorem Term.leads_cellsFrom (h : Keeps n P Q) (hk : n ≤ k) {cs : List Cell} {frames : List Term}
    (hcs : ∀ c ∈ cs, P k c.content) (hf : ∀ t ∈ frames, P k t) :
    Leads k P (Term.cellsFrom cs frames) := by
  refine Leads.bind (p := fun k => CellParts.Holds (P k) Q) ?_ fun m p hm hp =>
    CellParts.leads_build h (le_trans hk hm) hp
  exact Leads.foldlM ⟨hcs, List.forall_mem_nil _⟩ fun m p hm hp t ht =>
    CellParts.leads_concat h hp (h.mono hm (hf t ht))

/-! ### Nodes made again -/

namespace Term
variable {t : Term}

theorem mem_pairUp {ts : List Term} {e : Term × Term} (h : e ∈ pairUp ts) :
    e.1 ∈ ts ∧ e.2 ∈ ts := by
  induction ts using pairUp.induct with
  | case1 k v ts ih =>
    rw [pairUp] at h
    rcases List.mem_cons.mp h with rfl | h
    · simp
    · exact ⟨by simp [(ih h).1], by simp [(ih h).2]⟩
  | case2 => simp_all [pairUp]

theorem mem_refill {ts : List (Option Term)} {cs : List Term} {c : Term}
    (h : some c ∈ refill ts cs) : c ∈ cs := by
  induction ts, cs using refill.induct with
  | case1 u ts d cs ih =>
    rw [refill] at h
    rcases List.mem_cons.mp h with h | h
    · cases h
      exact List.mem_cons_self
    · exact List.mem_cons_of_mem d (ih h)
  | case2 ts cs ih =>
    rw [refill] at h
    rcases List.mem_cons.mp h with h | h
    · cases h
    · exact ih h
  | case3 => simp_all [refill]

/-- The parts that a list is rebuilt from are added one after the other. -/
theorem leads_rebuildList (h : Keeps n P Q) (hk : n ≤ k) {ops : CollectionOps}
    {left base cs : List Term} (hcs : ∀ c ∈ cs, P k c) (add : ListParts → Term → Build ListParts)
    (hadd : ∀ m p c, k ≤ m → p.Holds (P m) → P m c → Leads m (fun m => ListParts.Holds (P m)) (add p c)) :
    Leads k P (do
      let (ls, rest) := cs.splitAt left.length
      let (bs, rs) := rest.splitAt base.length
      let p ← ls.foldlM add { ops }
      let p ← bs.foldlM ListParts.concat p
      (← rs.foldlM add p).build) := by
  simp only [List.splitAt_eq]
  have hl : ∀ c ∈ cs.take left.length, P k c := fun c hc => hcs c (List.mem_of_mem_take hc)
  have hr : ∀ c ∈ cs.drop left.length, P k c := fun c hc => hcs c (List.mem_of_mem_drop hc)
  let r (k : ι) (p : ListParts) : Prop := p.Holds (P k)
  refine Leads.bind (Leads.foldlM (r := r) (ListParts.holds_empty _ ops) fun m p hm hp c hc => ?_)
    fun k₁ p hk₁ hp => ?_
  · exact hadd m p c hm hp (h.mono hm (hl c hc))
  refine Leads.bind (Leads.foldlM (r := r) hp fun m p hm hp c hc => ?_) fun k₂ p hk₂ hp => ?_
  · have hkm := le_trans hk₁ hm
    exact ListParts.leads_concat h (le_trans hk hkm) hp
      (h.mono hkm (hr c (List.mem_of_mem_take hc)))
  have hk₂ := le_trans hk₁ hk₂
  refine Leads.bind (Leads.foldlM (r := r) hp fun m p hm hp c hc => ?_) fun k₃ p hk₃ hp => ?_
  · have hkm := le_trans hk₂ hm
    exact hadd m p c hkm hp (h.mono hkm (hr c (List.mem_of_mem_drop hc)))
  · exact ListParts.leads_build h (le_trans hk (le_trans hk₂ hk₃)) hp

/-- A node that is made again from children with the property has it. -/
theorem leads_rebuild (h : Keeps n P Q) (hk : n ≤ k) {cs fs : List Term} (hcs : ∀ c ∈ cs, P k c)
    (hfs : ∀ f ∈ fs, P k f) (hself : t.node.isLeaf ∨ cs.length ≠ t.children.length → P k t)
    (hchoice : t.node.isChoice → Leads k P (t.rebuild cs fs)) : Leads k P (t.rebuild cs fs) := by
  by_cases hc : t.node.isChoice
  · exact hchoice hc
  unfold rebuild
  split
  · exact h.new hk rfl hcs (List.forall_mem_nil _)
  · exact h.new hk rfl hcs (List.forall_mem_nil _)
  · exact leads_sequence h hk (List.forall_mem_append.mpr ⟨hcs, hfs⟩)
  · refine leads_rebuildList h hk hcs _ fun m p c hm hp hc => ?_
    refine .ite (fun _ => ?_) fun _ => .pure (ListParts.holds_addItem hp hc)
    exact ListParts.leads_concat h (le_trans hk hm) hp hc
  · rename_i ops entries base hn
    simp only [List.splitAt_eq]
    refine MapParts.leads_build h hk (MapParts.keeps_concatAll h (MapParts.holds_putAll
      (MapParts.holds_empty _ ops) fun e he => ?_) fun c hc => hcs c (List.mem_of_mem_drop hc))
    obtain ⟨h1, h2⟩ := mem_pairUp he
    exact ⟨hcs _ (List.mem_of_mem_take h1), hcs _ (List.mem_of_mem_take h2)⟩
  · rename_i ops elements base hn
    simp only [List.splitAt_eq]
    exact SetParts.leads_build h hk (SetParts.keeps_concatAll h (SetParts.holds_addAll
      (SetParts.holds_empty _ ops) fun c hc => hcs c (List.mem_of_mem_take hc))
      fun c hc => hcs c (List.mem_of_mem_drop hc))
  · rename_i parts frames hn
    refine leads_cellsFrom h hk (fun c hc => ?_) hfs
    obtain ⟨i, hi, rfl⟩ := List.getElem_of_mem hc
    rw [List.getElem_zipWith]
    exact hcs _ (List.getElem_mem _)
  · simp_all [Node.isChoice]
  · simp_all [Node.isChoice]
  · simp_all [Node.isChoice]
  · rename_i cs' _ _ happ hseq hlist hmap hset hcells hdis hright hfreezer hrewrite
    refine .pure (hself ?_)
    cases hn : t.node with
    | app l args s =>
      cases l with
      | const l => exact absurd hn (happ _ _ _)
      | freezer f =>
        cases cs' with
        | nil => exact .inr (by simp [children, hn, Node.children])
        | cons c cs' => exact (hfreezer _ _ _ _ _ hn rfl).elim
    | seq => exact absurd hn (hseq _ _)
    | list => exact absurd hn (hlist _ _ _ _)
    | map => exact absurd hn (hmap _ _ _)
    | set => exact absurd hn (hset _ _ _)
    | cells => exact absurd hn (hcells _ _)
    | rewrite => exact absurd (by rw [hn]; rfl) hc
    | disjunction => exact absurd hn (hdis _)
    | rightSides => exact absurd hn (hright _)
    | _ => exact .inl rfl

/-- A node is made again with a property that all nodes over such children have. -/
theorem leads_rebuild_node (h : Keeps n P Q) (hk : n ≤ k) {cs fs : List Term} (hcs : ∀ c ∈ cs, P k c)
    (hfs : ∀ f ∈ fs, P k f) (hself : t.node.isLeaf ∨ cs.length ≠ t.children.length → P k t)
    (hrewrite : ∀ l r, t.isRewrite → cs = [l, r] → Leads k P (rewrite l r))
    (hchoice : ∀ m : Node Term, (∀ l r, m ≠ .rewrite l r) → m.isVar = false → m.frames = [] →
      (∀ c ∈ m.children, P k c) → Leads k P (new m)) :
    Leads k P (t.rebuild cs fs) := by
  refine leads_rebuild h hk hcs hfs hself fun hn => ?_
  unfold rebuild
  cases hm : t.node with
  | disjunction branches =>
    refine hchoice _ (fun _ _ h => by cases h) rfl rfl fun c hc => ?_
    obtain ⟨e, he, rfl⟩ := List.mem_map.mp hc
    obtain ⟨i, hi, rfl⟩ := List.getElem_of_mem he
    rw [List.getElem_zipWith]
    exact hcs _ (List.getElem_mem _)
  | rightSides byRule =>
    refine hchoice _ (fun _ _ h => by cases h) rfl rfl fun c hc => ?_
    obtain ⟨o, ho, hc⟩ := List.mem_filterMap.mp hc
    cases hc
    exact hcs c (mem_refill ho)
  | rewrite l r =>
    have hkept (hlen : cs.length ≠ 2) : Leads k P (pure t) :=
      .pure (hself (.inr (by rwa [children, hm])))
    rcases cs with _ | ⟨l', _ | ⟨r', _ | _⟩⟩
    · exact hkept (by simp)
    · exact hkept (by simp)
    · exact hrewrite l' r' (by rw [isRewrite, hm]) rfl
    · exact hkept (by simp)
  | _ => simp [hm, Node.isChoice] at hn

end Term

end RuleCompiler
