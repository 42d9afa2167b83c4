import RuleCompiler.Proofs.Matching.Congruence

/-! # The bound on subjects

A match looks only at subjects that are not larger than the one it was given: at its parts, at lists of some
of these, and at what is left of a collection. So every bound that is as large as the subject gives the same
match. -/

namespace RuleCompiler

/-! ### Sizes of what is built -/

namespace Term

/-- The sizes of the terms together. -/
def sizes (ts : List Term) : Nat := (ts.map size).foldr (· + ·) 0

@[simp] theorem sizes_nil : sizes [] = 0 := rfl

@[simp] theorem sizes_cons (t : Term) (ts : List Term) : sizes (t :: ts) = t.size + sizes ts := rfl

@[simp] theorem sizes_append (ts us : List Term) : sizes (ts ++ us) = sizes ts + sizes us := by
  induction ts with
  | nil => simp
  | cons t ts ih => simp [ih, Nat.add_assoc]

theorem sizes_perm {ts us : List Term} (h : ts.Perm us) : sizes ts = sizes us := by
  induction h with
  | nil => rfl
  | cons _ _ ih => simp [ih]
  | swap => simp only [sizes_cons]; omega
  | trans _ _ ih ih' => exact ih.trans ih'

theorem sizes_sublist {ts us : List Term} (h : ts.Sublist us) : sizes ts ≤ sizes us := by
  induction h with
  | slnil => exact Nat.le_refl _
  | cons _ _ ih => rw [sizes_cons]; omega
  | cons_cons _ _ ih => rw [sizes_cons, sizes_cons]; omega

theorem size_eq_sizes (t : Term) : t.size = 1 + sizes t.children := size_eq t

theorem size_new (m : Node Term) : Returns (fun t => t.size = 1 + sizes m.children) (new m) :=
  (returns_new m).mono fun t ht => by rw [size_eq_sizes, children, ht]

/-- The sizes of keys and values together. -/
def entrySizes (es : List (Term × Term)) : Nat := sizes (es.flatMap fun e => [e.1, e.2])

@[simp] theorem entrySizes_nil : entrySizes [] = 0 := rfl

@[simp] theorem entrySizes_cons (e : Term × Term) (es : List (Term × Term)) :
    entrySizes (e :: es) = e.1.size + e.2.size + entrySizes es := by
  simp [entrySizes, Nat.add_assoc]

theorem entrySizes_put (k v : Term) (es : List (Term × Term)) :
    entrySizes (SortedList.put cmp k v es) ≤ k.size + v.size + entrySizes es := by
  induction es with
  | nil => simp [SortedList.put]
  | cons e es ih =>
    rw [SortedList.put]
    split <;> simp only [entrySizes_cons] <;> omega

theorem sizes_addNew (t : Term) (ts : List Term) : sizes (SortedList.addNew cmp t ts) ≤ t.size + sizes ts := by
  induction ts with
  | nil => simp [SortedList.addNew]
  | cons u ts ih =>
    rw [SortedList.addNew]
    split <;> simp only [sizes_cons] <;> omega

theorem entrySizes_sublist {es es' : List (Term × Term)} (h : es.Sublist es') : entrySizes es ≤ entrySizes es' := by
  induction h with
  | slnil => exact Nat.le_refl _
  | cons _ _ ih => rw [entrySizes_cons]; omega
  | cons_cons _ _ ih => rw [entrySizes_cons, entrySizes_cons]; omega

end Term

open Term (sizes entrySizes)

theorem Matching.size_listOf (ops : CollectionOps) (ts : List Term) :
    Returns (fun t => t.size ≤ 1 + sizes ts) (listOf ops ts) := by
  have hparts : ts.foldl ListParts.addItem { ops } = { ops, left := ts } := ListParts.foldl_addItem rfl
  have hnew : Returns (fun t : Term => t.size ≤ 1 + sizes ts) (Term.new (.list ops ts [] [])) :=
    (Term.size_new _).mono fun t ht => by simp [ht, Node.children]
  rw [listOf, hparts]
  unfold ListParts.build
  split
  · rename_i h _
    cases h
  · rename_i hl _
    cases hl
    exact .ite (fun _ => .pure (Nat.le_refl 1)) fun _ => hnew
  · rename_i t hl _
    cases hl
    exact .ite (fun _ => .pure (by rw [Term.sizes_cons]; omega)) fun _ => hnew
  · exact hnew

/-- A bound on the size of the map that the parts make. -/
def MapParts.size (p : MapParts) : Nat := 1 + entrySizes p.entries + sizes p.base

theorem MapParts.size_concat (p : MapParts) (t : Term) : (p.concat t).size ≤ p.size + t.size := by
  have hputs (es : List (Term × Term)) : ∀ q : MapParts, q.base = p.base →
      (es.foldl (fun q e => q.put e.1 e.2) q).base = p.base ∧
        entrySizes (es.foldl (fun q e => q.put e.1 e.2) q).entries ≤ entrySizes q.entries + entrySizes es := by
    induction es with
    | nil => exact fun q hq => ⟨hq, Nat.le_refl _⟩
    | cons e es ih =>
      intro q hq
      have hput := Term.entrySizes_put e.1 e.2 q.entries
      obtain ⟨hbase, hsize⟩ := ih (q.put e.1 e.2) hq
      refine ⟨hbase, ?_⟩
      rw [put] at hsize
      dsimp only at hsize
      rw [List.foldl_cons, Term.entrySizes_cons, put]
      omega
  have hpart : size { p with base := p.base ++ [t] } = p.size + t.size := by
    simp [size, Nat.add_assoc]
  unfold concat
  split
  · rename_i ops entries base hn
    split
    · obtain ⟨hbase, hsize⟩ := hputs entries p rfl
      have ht := t.size_eq_sizes
      rw [Term.children, hn, Node.children, Term.sizes_append, ← entrySizes] at ht
      simp only [size, hbase, Term.sizes_append]
      omega
    · exact Nat.le_of_eq hpart
  · split
    · exact Nat.le_add_right _ _
    · exact Nat.le_of_eq hpart

theorem MapParts.size_foldl_concat (ts : List Term) : ∀ p : MapParts,
    (ts.foldl concat p).size ≤ p.size + sizes ts := by
  induction ts with
  | nil => exact fun p => Nat.le_refl _
  | cons t ts ih =>
    intro p
    have hstep := size_concat p t
    have hrest := ih (p.concat t)
    rw [List.foldl_cons, Term.sizes_cons]
    omega

theorem MapParts.size_build (p : MapParts) : Returns (fun t => t.size ≤ p.size) p.build := by
  have hnew : Returns (fun t : Term => t.size ≤ p.size)
      (Term.new (.map p.ops p.entries (SortedList.sort Term.cmp p.base))) :=
    (Term.size_new _).mono fun t ht => by
      rw [ht, Node.children, Term.sizes_append, Term.sizes_perm (SortedList.perm_sort p.base), size, entrySizes]
      omega
  unfold build
  split
  · rename_i t he hb
    refine .pure ?_
    rw [size, hb, Term.sizes_cons]
    omega
  · exact hnew

/-- A bound on the size of the set that the parts make. -/
def SetParts.size (p : SetParts) : Nat := 1 + sizes p.elements + sizes p.base

theorem SetParts.size_concat (p : SetParts) (t : Term) : (p.concat t).size ≤ p.size + t.size := by
  have hadds (ts : List Term) : ∀ q : SetParts, q.base = p.base →
      (ts.foldl add q).base = p.base ∧ sizes (ts.foldl add q).elements ≤ sizes q.elements + sizes ts := by
    induction ts with
    | nil => exact fun q hq => ⟨hq, Nat.le_refl _⟩
    | cons t ts ih =>
      intro q hq
      have hadd := Term.sizes_addNew t q.elements
      obtain ⟨hbase, hsize⟩ := ih (q.add t) hq
      refine ⟨hbase, ?_⟩
      rw [add] at hsize
      dsimp only at hsize
      rw [List.foldl_cons, Term.sizes_cons, add]
      omega
  have hpart : size { p with base := p.base ++ [t] } = p.size + t.size := by
    simp [size, Nat.add_assoc]
  unfold concat
  split
  · rename_i ops elements base hn
    split
    · obtain ⟨hbase, hsize⟩ := hadds elements p rfl
      have ht := t.size_eq_sizes
      rw [Term.children, hn, Node.children, Term.sizes_append] at ht
      simp only [size, hbase, Term.sizes_append]
      omega
    · exact Nat.le_of_eq hpart
  · split
    · exact Nat.le_add_right _ _
    · exact Nat.le_of_eq hpart

theorem SetParts.size_foldl_concat (ts : List Term) : ∀ p : SetParts,
    (ts.foldl concat p).size ≤ p.size + sizes ts := by
  induction ts with
  | nil => exact fun p => Nat.le_refl _
  | cons t ts ih =>
    intro p
    have hstep := size_concat p t
    have hrest := ih (p.concat t)
    rw [List.foldl_cons, Term.sizes_cons]
    omega

theorem SetParts.size_build (p : SetParts) : Returns (fun t => t.size ≤ p.size) p.build := by
  have hnew : Returns (fun t : Term => t.size ≤ p.size)
      (Term.new (.set p.ops p.elements (SortedList.sort Term.cmp p.base))) :=
    (Term.size_new _).mono fun t ht => by
      rw [ht, Node.children, Term.sizes_append, Term.sizes_perm (SortedList.perm_sort p.base), size]
      omega
  unfold build
  split
  · rename_i t he hb
    refine .pure ?_
    rw [size, hb, Term.sizes_cons]
    omega
  · exact hnew

/-! ### Matchers that agree up to a size -/

theorem Build.bind_congr_of_returns {α β : Type} {P : α → Prop} {x : Build α} {f g : α → Build β}
    (hx : Returns P x) (h : ∀ a, P a → f a = g a) : x >>= f = x >>= g := by
  funext n
  show StateT.bind x (ExceptT.bindCont f) n = StateT.bind x (ExceptT.bindCont g) n
  rw [StateT.bind, StateT.bind]
  cases hrun : x n with
  | mk r k =>
    cases r with
    | ok a => exact congrFun (h a (hx a ⟨n, k, hrun⟩)) k
    | error e => rfl

namespace Matching

/-- The matchers find the same in subjects up to a size. -/
def AgreeUpTo (n : Nat) (go go' : Matcher) : Prop := ∀ p s, s.size ≤ n → ∀ st, go p s st = go' p s st

variable {n : Nat} {go go' deeper deeper' : Matcher}

section Helpers
variable (hgo : AgreeUpTo n go go')
include hgo

theorem pairs_bounded {es : List (Term × Term)} (hes : ∀ e ∈ es, e.2.size ≤ n) (states : List MatchState) :
    pairs go es states = pairs go' es states :=
  pairs_congr (List.forall₂_same.mpr fun e he => ⟨rfl, hgo e.1 e.2 (hes e he)⟩) states

theorem listMiddle_bounded {ops : CollectionOps} {bases : List Term} : ∀ {items : List Term},
    (∀ t ∈ items, t.size ≤ n) → (∀ front, front.Sublist items → Returns (fun t => t.size ≤ n) (listOf ops front)) →
      ∀ st, listMiddle go ops bases items st = listMiddle go' ops bases items st := by
  induction bases with
  | nil => exact fun _ _ _ => rfl
  | cons b bases ih =>
    intro items hitems hchunk st
    have hrest {rest : List Term} (h : rest.Sublist items) (st : MatchState) :
        listMiddle go ops bases rest st = listMiddle go' ops bases rest st :=
      ih (fun t ht => hitems t (h.subset ht)) (fun front hf => hchunk front (hf.trans h)) st
    rw [listMiddle, listMiddle]
    split
    · refine if_congr Iff.rfl ?_ rfl
      rw [pairs_bounded hgo fun e he => hitems e.2 (List.of_mem_zip he).2]
      exact bind_congr fun sts => flatMapM_congr fun st' _ => hrest (List.drop_sublist _ _) st'
    · refine flatMapM_congr fun e he => ?_
      have hfront : e.1.Sublist items ∧ e.2.Sublist items := by
        split at he
        · cases List.mem_singleton.mp he
          exact ⟨.refl _, List.nil_sublist _⟩
        · have happend : e.1 ++ e.2 = items := mem_splits he
          exact ⟨happend ▸ List.sublist_append_left _ _, happend ▸ List.sublist_append_right _ _⟩
      refine Build.bind_congr_of_returns (hchunk e.1 hfront.1) fun chunk hsize => ?_
      rw [hgo b chunk hsize]
      exact bind_congr fun sts => flatMapM_congr fun st' _ => hrest hfront.2 st'

theorem list_bounded {p s : ListParts} (hleft : ∀ t ∈ s.left ++ (s.base ++ s.right), t.size ≤ n)
    (hchunk : ∀ front, front.Sublist s.left → Returns (fun t => t.size ≤ n) (listOf p.ops front))
    (st : MatchState) : list go p s st = list go' p s st := by
  simp only [List.forall_mem_append] at hleft
  obtain ⟨hl, hb, hr⟩ := hleft
  unfold list
  refine if_congr Iff.rfl (if_congr Iff.rfl (pairs_bounded hgo ?_ _) rfl) (if_congr Iff.rfl rfl ?_)
  · intro e he
    rcases List.mem_append.mp he with he | he
    · rcases List.mem_append.mp he with he | he
      · exact hl _ (List.of_mem_zip he).2
      · exact hb _ (List.of_mem_zip he).2
    · exact hr _ (List.of_mem_zip he).2
  · have hends : ∀ e ∈ p.left.zip s.left ++ p.right.zip (s.left.drop (s.left.length - p.right.length)),
        e.2.size ≤ n := by
      intro e he
      rcases List.mem_append.mp he with he | he
      · exact hl _ (List.of_mem_zip he).2
      · exact hl _ (List.mem_of_mem_drop (List.of_mem_zip he).2)
    have hmiddle : ((s.left.drop p.left.length).take
        (s.left.length - p.right.length - p.left.length)).Sublist s.left :=
      (List.take_sublist _ _).trans (List.drop_sublist _ _)
    rw [pairs_bounded hgo hends]
    refine bind_congr fun sts => flatMapM_congr fun st' _ => ?_
    exact listMiddle_bounded hgo (fun t ht => hl t (hmiddle.subset ht)) (fun front hf => hchunk front (hf.trans hmiddle)) st'

theorem rest_bounded {bases : List Term} {remainder : Term} (h : remainder.size ≤ n) (st : MatchState) :
    rest go bases remainder st = rest go' bases remainder st := by
  unfold rest
  split
  · rfl
  · exact hgo _ _ h st
  · rfl

variable (hdeeper : ∀ p s, s.size < n → ∀ st, deeper p s st = deeper' p s st)
include hdeeper

theorem mapEntries_bounded {ops : CollectionOps} {sBase pBase : List Term} (es : List (Term × Term)) :
    ∀ {unused : List (Term × Term)}, 1 + entrySizes unused + sizes sBase ≤ n → ∀ st,
      mapEntries go deeper ops sBase pBase es unused st = mapEntries go' deeper' ops sBase pBase es unused st := by
  induction es with
  | nil =>
    intro unused hsize st
    refine Build.bind_congr_of_returns (MapParts.size_build _) fun r hr => rest_bounded hgo ?_ st
    refine Nat.le_trans hr (Nat.le_trans (MapParts.size_foldl_concat sBase _) ?_)
    simpa [MapParts.size] using hsize
  | cons e es ih =>
    obtain ⟨key, value⟩ := e
    intro unused hsize st
    have hentry {u : Term × Term} (hu : u ∈ unused) : u.1.size + u.2.size ≤ entrySizes unused := by
      have hle := Term.entrySizes_sublist (List.singleton_sublist.mpr hu)
      simpa using hle
    have hnext {u : Term × Term} (hu : u ∈ unused) (st' : MatchState) :
        (go value u.2 st' >>= fun sts =>
          sts.flatMapM (mapEntries go deeper ops sBase pBase es (SortedList.erase u.1 unused))) =
        go' value u.2 st' >>= fun sts =>
          sts.flatMapM (mapEntries go' deeper' ops sBase pBase es (SortedList.erase u.1 unused)) := by
      have hle := hentry hu
      have herase := Term.entrySizes_sublist
        (List.filter_sublist (l := unused) (p := fun w : Term × Term => !(w.1 == u.1)))
      rw [hgo value u.2 (by omega)]
      refine bind_congr fun sts => flatMapM_congr fun st'' _ => ih ?_ st''
      rw [SortedList.erase]
      omega
    rw [mapEntries, mapEntries]
    refine bind_congr fun k => if_congr Iff.rfl ?_ ?_
    · exact flatMapM_congr fun u hu => hnext (List.mem_filter.mp hu).1 st
    · refine flatMapM_congr fun u hu => ?_
      have hle := hentry hu
      have hpos := u.2.size_pos
      rw [hdeeper k u.1 (by omega)]
      exact bind_congr fun sts => flatMapM_congr fun st' _ => hnext hu st'

theorem setElements_bounded {ops : CollectionOps} {sBase pBase : List Term} (es : List Term) :
    ∀ {unused : List Term}, 1 + sizes unused + sizes sBase ≤ n → ∀ st,
      setElements go deeper ops sBase pBase es unused st = setElements go' deeper' ops sBase pBase es unused st := by
  induction es with
  | nil =>
    intro unused hsize st
    refine Build.bind_congr_of_returns (SetParts.size_build _) fun r hr => rest_bounded hgo ?_ st
    refine Nat.le_trans hr (Nat.le_trans (SetParts.size_foldl_concat sBase _) ?_)
    simpa [SetParts.size] using hsize
  | cons e es ih =>
    intro unused hsize st
    rw [setElements, setElements]
    refine bind_congr fun e' => flatMapM_congr fun u hu => ?_
    have hle := Term.sizes_sublist (List.singleton_sublist.mpr (List.mem_filter.mp hu).1)
    rw [Term.sizes_cons, Term.sizes_nil] at hle
    rw [hdeeper e' u (by omega)]
    have hrest := Term.sizes_sublist (List.filter_sublist (l := unused) (p := fun w : Term => w != u))
    exact bind_congr fun sts => flatMapM_congr fun st' _ => ih (by omega) st'

omit hgo hdeeper in
/-- Lists of some of the items of a subject are not larger than the subject. -/
theorem size_listView {ops : CollectionOps} {s : Term} {parts : ListParts} (h : listView? ops s = some parts)
    {front : List Term} (hfront : front.Sublist parts.left) :
    Returns (fun t => t.size ≤ s.size) (listOf ops front) := by
  have hpos := s.size_pos
  have hlist (hsize : sizes front < s.size) : Returns (fun t => t.size ≤ s.size) (listOf ops front) :=
    (size_listOf ops front).mono fun t ht => by omega
  have hself (hop : ops.isOperator) (hfront : front.Sublist [s]) :
      Returns (fun t => t.size ≤ s.size) (listOf ops front) := by
    rcases List.sublist_singleton.mp hfront with rfl | rfl
    · exact hlist hpos
    · have hone : listOf ops [s] = pure s := by
        rw [listOf, ListParts.foldl_addItem rfl]
        exact if_pos hop
      exact hone ▸ .pure (Nat.le_refl _)
  unfold listView? at h
  split at h
  · rename_i left base right hn
    cases h
    have hsize := s.size_eq_sizes
    have hle : sizes front ≤ sizes left := Term.sizes_sublist hfront
    rw [Term.children, hn, Node.children, Term.sizes_append] at hsize
    exact hlist (by omega)
  · rename_i hlists
    unfold operandsOf? at h
    split at h
    · cases h
    · rename_i hop
      have hop : ops.isOperator := by simpa using hop
      split at h
      · rename_i hn
        exact absurd hn (hlists _ _ _ _)
      · split at h <;> cases h
        · exact hself hop (hfront.trans (List.nil_sublist _))
        · exact hself hop hfront
      · split at h <;> cases h
        · exact hself hop (hfront.trans (List.nil_sublist _))
        · exact hself hop hfront

/-- One level of a match. -/
theorem node_bounded {p s : Term} (hs : s.size ≤ n) (st : MatchState) :
    node go deeper p s st = node go' deeper' p s st := by
  have hpart {m : Node Term} (hn : s.node = m) : 1 + sizes m.children ≤ n := by
    rw [← hn]
    exact s.size_eq_sizes ▸ hs
  have hchild {m : Node Term} (hn : s.node = m) {c : Term} (hc : c ∈ m.children) : c.size ≤ n := by
    subst hn
    exact Nat.le_trans (Nat.le_of_lt (Term.size_child hc)) hs
  have hpairs {ps ss : List Term} {label : Label} {k : SortName} (hn : s.node = .app label ss k)
      (states : List MatchState) : pairs go (ps.zip ss) states = pairs go' (ps.zip ss) states := by
    refine pairs_bounded hgo (fun e he => hchild hn ?_) states
    have hmem := (List.of_mem_zip he).2
    cases label with
    | const => exact hmem
    | freezer => exact List.mem_cons_of_mem _ hmem
  have hself : ∀ t ∈ [s], t.size ≤ n := List.forall_mem_singleton.mpr hs
  unfold node
  refine if_congr Iff.rfl rfl ?_
  cases p.node with
  | app label ps k =>
    cases hn : s.node with
    | app label' ss k' =>
      cases label with
      | const l =>
        cases label' with
        | const l' => exact if_congr Iff.rfl (hpairs hn _) rfl
        | freezer => rfl
      | freezer t =>
        cases label' with
        | const => rfl
        | freezer t' =>
          refine if_congr Iff.rfl ?_ rfl
          rw [hgo t t' (hchild hn List.mem_cons_self)]
          exact bind_congr fun sts => flatMapM_congr fun st' _ => hpairs hn _
    | _ => cases label <;> rfl
  | seq items frame =>
    exact sequence_congr (S := fun t => t.size ≤ n)
      (List.forall₂_same.mpr fun q _ => ⟨fun t ht => hgo q t ht, rfl⟩) (sequenceView_all (fun c hc => hchild rfl hc) hs) st
  | list ops left base right =>
    dsimp only
    split
    · rename_i hparts
      have hview : listView? ops s = some _ := hparts
      refine if_congr Iff.rfl (list_bounded hgo ?_ (fun front hf => ?_) st) rfl
      · exact listView?_all (fun c hc => hchild rfl hc) hs hview
      · exact (size_listView hview hf).mono fun t ht => Nat.le_trans ht hs
    · rfl
  | map ops entries base =>
    cases hn : s.node with
    | map ops' entries' base' =>
      refine if_congr Iff.rfl (mapEntries_bounded hgo hdeeper entries ?_ st) rfl
      have hsize := hpart hn
      rw [Node.children, Term.sizes_append, ← entrySizes] at hsize
      omega
    | _ => rfl
  | set ops elements base =>
    cases hn : s.node with
    | set ops' elements' base' =>
      refine if_congr Iff.rfl (setElements_bounded hgo hdeeper elements ?_ st) rfl
      have hsize := hpart hn
      rw [Node.children, Term.sizes_append] at hsize
      omega
    | _ => rfl
  | cells cs frames =>
    cases hn : s.node with
    | cells cs' frames' =>
      refine cells_congr (S := fun t => t.size ≤ n)
        (List.forall₂_same.mpr fun c _ => ⟨rfl, fun t ht => hgo c.content t ht⟩) (fun u hu => hchild hn ?_) st
      obtain ⟨i, hi, rfl⟩ := List.mem_mapIdx.mp hu
      exact List.mem_map_of_mem (List.getElem_mem hi)
    | _ => rfl
  | rewrite l r => exact hgo l s hs st
  | disjunction bs => exact branches_congr (fun b _ => hgo b.1 s hs) st
  | _ => rfl

end Helpers

/-! ### Bounds -/

theorem upTo_bounded (h : ∀ p s, s.size < n → ∀ st, deeper p s st = deeper' p s st) :
    ∀ size, AgreeUpTo n (upTo deeper size) (upTo deeper' size)
  | 0 => fun _ _ _ _ => rfl
  | size + 1 => fun _ _ hs st => node_bounded (upTo_bounded h size) h hs st

/-- Any bound that is as large as the subject will do. -/
theorem below_eq_matchFrom (p : Term) : ∀ {n : Nat} {s : Term}, s.size ≤ n → ∀ st,
    below n p s st = matchFrom p s st := by
  have hbelow (n : Nat) : ∀ m, n ≤ m → AgreeUpTo n (below n) (below m) := by
    induction n with
    | zero =>
      intro m _ p s hs
      have := s.size_pos
      omega
    | succ n ih =>
      intro m hm p s hs st
      obtain ⟨m, rfl⟩ := Nat.exists_eq_add_of_le' (Nat.le_trans (Nat.le_add_left 1 n) hm)
      exact upTo_bounded (fun q t ht st => ih m (by omega) q t (by omega) st) p.size p s hs st
  intro n s hs st
  exact (hbelow s.size n hs p s (Nat.le_refl _) st).symm

end Matching

end RuleCompiler
