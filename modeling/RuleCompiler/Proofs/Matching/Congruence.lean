import RuleCompiler.Proofs.Builder.Sequence
import RuleCompiler.Proofs.Matching.Reads

/-! # Patterns that find the same

A match looks at a part of the pattern through the matcher for it only, but for the few nodes that it
looks at itself: segments of sequences, runs among the parts of lists, keys and elements. Where these
agree and the matchers of the other parts find the same, the whole finds the same. In particular the
bound on the size of patterns does not matter. -/

namespace RuleCompiler.Matching

/-- The matchers find the same, each for its own pattern, in every subject that `S` accepts. -/
def Agree (S : Term → Prop) (go go' : Matcher) (p q : Term) : Prop :=
  ∀ s, S s → ∀ st, go p s st = go' q s st

/-- The same for parts of a list: runs of items are taken apart, any other part is matched as it is, also
against lists made of items. -/
inductive PartsAgree (S : Term → Prop) (go go' : Matcher) (b b' : Term) : Prop where
  | run {ops ops' : CollectionOps} {run run' base base' right right' : List Term}
      (hb : b.node = .list ops run base right) (hb' : b'.node = .list ops' run' base' right')
      (hbase : base.isEmpty = base'.isEmpty) (hrun : List.Forall₂ (Agree S go go') run run')
      (h : Agree S go go' b b')
  | part (hb : ∀ ops left base right, b.node ≠ .list ops left base right)
      (hb' : ∀ ops left base right, b'.node ≠ .list ops left base right)
      (h : Agree (fun _ => True) go go' b b')

/-- The same for nodes. -/
inductive NodesAgree (S : Term → Prop) (go go' : Matcher) : Node Term → Node Term → Prop where
  | leaf {n : Node Term} (hn : n.isLeaf) : NodesAgree S go go' n n
  | app {l : String} {ps qs : List Term} {s s' : SortName} (h : List.Forall₂ (Agree S go go') ps qs) :
      NodesAgree S go go' (.app (.const l) ps s) (.app (.const l) qs s')
  | freezer {f g : Term} {ps qs : List Term} {s s' : SortName} (hf : Agree S go go' f g)
      (h : List.Forall₂ (Agree S go go') ps qs) :
      NodesAgree S go go' (.app (.freezer f) ps s) (.app (.freezer g) qs s')
  | seq {ps qs : List Term} {frame : Option Var}
      (h : List.Forall₂ (fun p q => Agree S go go' p q ∧ segment? p = segment? q) ps qs) :
      NodesAgree S go go' (.seq ps frame) (.seq qs frame)
  | list {ops : CollectionOps} {left left' base base' right right' : List Term}
      (hl : List.Forall₂ (Agree S go go') left left')
      (hb : List.Forall₂ (PartsAgree S go go') base base')
      (hr : List.Forall₂ (Agree S go go') right right') :
      NodesAgree S go go' (.list ops left base right) (.list ops left' base' right')
  | map {ops : CollectionOps} {es es' : List (Term × Term)} {base base' : List Term}
      (he : List.Forall₂ (fun e e' => e.1 = e'.1 ∧ Agree S go go' e.2 e'.2) es es')
      (hb : List.Forall₂ (Agree (fun _ => True) go go') base base') :
      NodesAgree S go go' (.map ops es base) (.map ops es' base')
  | set {ops : CollectionOps} {es base base' : List Term}
      (hb : List.Forall₂ (Agree (fun _ => True) go go') base base') :
      NodesAgree S go go' (.set ops es base) (.set ops es base')
  | cells {cs cs' : List Cell} {frames : List Var}
      (h : List.Forall₂ (fun c c' => c.label = c'.label ∧ Agree S go go' c.content c'.content) cs cs') :
      NodesAgree S go go' (.cells cs frames) (.cells cs' frames)
  | rewrite {l l' r r' : Term} (h : Agree S go go' l l') :
      NodesAgree S go go' (.rewrite l r) (.rewrite l' r')
  | disjunction {bs : List Term.Branch} (h : ∀ b ∈ bs, Agree S go go' b.1 b.1) :
      NodesAgree S go go' (.disjunction bs) (.disjunction bs)
  | rightSides {ts : List (Option Term)} : NodesAgree S go go' (.rightSides ts) (.rightSides ts)

variable {S : Term → Prop} {go go' deeper : Matcher}

theorem Agree.of_true {p q : Term} (h : Agree (fun _ => True) go go' p q) : Agree S go go' p q :=
  fun s _ => h s trivial

theorem PartsAgree.agree {b b' : Term} (h : PartsAgree S go go' b b') : Agree S go go' b b' := by
  cases h with
  | run _ _ _ _ h => exact h
  | part _ _ h => exact h.of_true

theorem flatMapM_congr {α β : Type} {f g : α → Build (List β)} {l : List α} (h : ∀ a ∈ l, f a = g a) :
    l.flatMapM f = l.flatMapM g := by
  induction l with
  | nil => rfl
  | cons a l ih =>
    obtain ⟨ha, hl⟩ := List.forall_mem_cons.mp h
    rw [List.flatMapM_cons, List.flatMapM_cons, ha, ih hl]

/-! ### Helpers -/

/-- Pairs with the same subjects, whose patterns find the same in these. -/
abbrev Aligned (go go' : Matcher) (es es' : List (Term × Term)) : Prop :=
  List.Forall₂ (fun e e' => e.2 = e'.2 ∧ ∀ st, go e.1 e.2 st = go' e'.1 e'.2 st) es es'

theorem aligned_zip {ps qs : List Term} (h : List.Forall₂ (Agree S go go') ps qs) :
    ∀ {ss : List Term}, (∀ s ∈ ss, S s) → Aligned go go' (ps.zip ss) (qs.zip ss) := by
  induction h with
  | nil => exact fun _ => .nil
  | cons hpq _ ih =>
    intro ss hs
    cases ss with
    | nil => exact .nil
    | cons s ss =>
      obtain ⟨hs, hss⟩ := List.forall_mem_cons.mp hs
      exact .cons ⟨rfl, hpq s hs⟩ (ih hss)

theorem pairs_congr {es es' : List (Term × Term)} (h : Aligned go go' es es') :
    ∀ states, pairs go es states = pairs go' es' states := by
  induction h with
  | nil => exact fun _ => rfl
  | @cons e e' es es' he _ ih =>
    intro states
    obtain ⟨p, s⟩ := e
    obtain ⟨q, s'⟩ := e'
    obtain ⟨rfl, he⟩ := he
    cases states with
    | nil => rfl
    | cons st states =>
      have hgo : go p s = go' q s := funext he
      simp only [pairs, hgo, ih]

theorem sequence_congr {pFrame sFrame : Option Var} {ps qs : List Term}
    (h : List.Forall₂ (fun p q => Agree S go go' p q ∧ segment? p = segment? q) ps qs) :
    ∀ {ss : List Term}, (∀ s ∈ ss, S s) → ∀ st,
      sequence go pFrame sFrame ps ss st = sequence go' pFrame sFrame qs ss st := by
  induction h with
  | nil =>
    intro ss _ st
    rw [sequence.eq_def, sequence.eq_def]
  | @cons p q ps qs hpq htail ih =>
    intro ss hss st
    obtain ⟨hpq, hsegment⟩ := hpq
    have hempty : ps.isEmpty = qs.isEmpty := by cases htail <;> rfl
    rw [sequence.eq_def, sequence.eq_def go']
    dsimp only
    rw [← hsegment, ← hempty]
    cases segment? p with
    | some v =>
      dsimp only
      refine congrArg (ite _ _) (flatMapM_congr fun e he => bind_congr fun run => ?_)
      refine flatMapM_congr fun st' _ => ih (fun s hs => hss s ?_) st'
      have hss : e.1 ++ e.2 = _ := mem_splits he
      rw [← hss]
      exact List.mem_append_right _ hs
    | none =>
      cases ss with
      | nil => rfl
      | cons s ss =>
        obtain ⟨hs, hss⟩ := List.forall_mem_cons.mp hss
        dsimp only
        rw [hpq s hs st]
        exact bind_congr fun sts => flatMapM_congr fun st' _ => ih hss st'

theorem listMiddle_part {ops : CollectionOps} {b : Term} {bases items : List Term} {st : MatchState}
    (hb : ∀ ops left base right, b.node ≠ .list ops left base right) :
    listMiddle go ops (b :: bases) items st =
      (if bases.isEmpty then [(items, [])] else splits items).flatMapM fun e => (do
        (← go b (← listOf ops e.1) st).flatMapM (listMiddle go ops bases e.2)) := by
  rw [listMiddle]
  split
  · exact absurd ‹_› (hb _ _ _ _)
  · rfl

theorem listMiddle_congr {ops : CollectionOps} {bases bases' : List Term}
    (h : List.Forall₂ (PartsAgree S go go') bases bases') :
    ∀ {items : List Term}, (∀ s ∈ items, S s) → ∀ st,
      listMiddle go ops bases items st = listMiddle go' ops bases' items st := by
  induction h with
  | nil => exact fun _ _ => rfl
  | @cons b b' bases bases' hb htail ih =>
    intro items hitems st
    have hempty : bases.isEmpty = bases'.isEmpty := by cases htail <;> rfl
    cases hb with
    | @run ops₁ ops₁' run run' base base' right right' hn hn' hbase hrun _ =>
      rw [listMiddle, listMiddle, hn, hn']
      dsimp only
      rw [← hbase, ← hrun.length_eq, pairs_congr (aligned_zip hrun hitems)]
      refine if_congr Iff.rfl (bind_congr fun sts => flatMapM_congr fun st' _ => ?_) rfl
      exact ih (fun s hs => hitems s (List.mem_of_mem_drop hs)) st'
    | part hn hn' hb =>
      rw [listMiddle_part hn, listMiddle_part hn', ← hempty]
      refine flatMapM_congr fun e he => bind_congr fun chunk => ?_
      rw [hb chunk trivial st]
      refine bind_congr fun sts => flatMapM_congr fun st' _ => ih (fun s hs => hitems s ?_) st'
      split at he
      · cases List.mem_singleton.mp he
        cases hs
      · have hitems : e.1 ++ e.2 = _ := mem_splits he
        rw [← hitems]
        exact List.mem_append_right _ hs

/-- A list pattern with other items and unknown parts. -/
theorem list_congr {ops : CollectionOps} {left left' base base' right right' : List Term}
    (hl : List.Forall₂ (Agree S go go') left left') (hb : List.Forall₂ (PartsAgree S go go') base base')
    (hr : List.Forall₂ (Agree S go go') right right') {s : ListParts} (hleft : ∀ c ∈ s.left, S c)
    (hbase : ∀ c ∈ s.base, S c) (hright : ∀ c ∈ s.right, S c) (st : MatchState) :
    list go { ops, left, base, right } s st =
      list go' { ops, left := left', base := base', right := right' } s st := by
  have hempty : base.isEmpty = base'.isEmpty := by cases hb <;> rfl
  unfold list
  dsimp only
  rw [← hl.length_eq, ← hb.length_eq, ← hr.length_eq, ← hempty]
  refine if_congr Iff.rfl (if_congr Iff.rfl (pairs_congr ?_ _) rfl) (if_congr Iff.rfl rfl ?_)
  · have hb' := hb.imp fun _ _ h => h.agree
    exact List.rel_append (List.rel_append (aligned_zip hl hleft) (aligned_zip hb' hbase))
      (aligned_zip hr hright)
  · have hends : Aligned go go'
        (left.zip s.left ++ right.zip (s.left.drop (s.left.length - right.length)))
        (left'.zip s.left ++ right'.zip (s.left.drop (s.left.length - right.length))) :=
      List.rel_append (aligned_zip hl hleft)
        (aligned_zip hr fun c hc => hleft c (List.mem_of_mem_drop hc))
    rw [pairs_congr hends]
    refine bind_congr fun sts => flatMapM_congr fun st' _ => listMiddle_congr hb (fun c hc => ?_) st'
    exact hleft c (List.mem_of_mem_drop (List.mem_of_mem_take hc))

theorem rest_congr {bases bases' : List Term}
    (h : List.Forall₂ (Agree (fun _ => True) go go') bases bases') (remainder : Term) (st : MatchState) :
    rest go bases remainder st = rest go' bases' remainder st := by
  cases h with
  | nil => rfl
  | cons hb htail =>
    cases htail with
    | nil => exact hb remainder trivial st
    | cons => rfl

theorem mapEntries_congr {ops : CollectionOps} {sBase base base' : List Term}
    (hb : List.Forall₂ (Agree (fun _ => True) go go') base base') {es es' : List (Term × Term)}
    (he : List.Forall₂ (fun e e' => e.1 = e'.1 ∧ Agree S go go' e.2 e'.2) es es') :
    ∀ {unused : List (Term × Term)}, (∀ u ∈ unused, S u.2) → ∀ st,
      mapEntries go deeper ops sBase base es unused st =
        mapEntries go' deeper ops sBase base' es' unused st := by
  induction he with
  | nil => exact fun _ st => bind_congr fun r => rest_congr hb r st
  | @cons e e' es es' hee' _ ih =>
    intro unused hunused st
    obtain ⟨key, value⟩ := e
    obtain ⟨key', value'⟩ := e'
    obtain ⟨rfl, hvalue⟩ := hee'
    have hnext {u : Term × Term} (hu : u ∈ unused) (st' : MatchState) :
        (go value u.2 st' >>= fun sts =>
          sts.flatMapM (mapEntries go deeper ops sBase base es (SortedList.erase u.1 unused))) =
        go' value' u.2 st' >>= fun sts =>
          sts.flatMapM (mapEntries go' deeper ops sBase base' es' (SortedList.erase u.1 unused)) := by
      rw [hvalue u.2 (hunused u hu) st']
      refine bind_congr fun sts => flatMapM_congr fun st'' _ => ih (fun w hw => hunused w ?_) st''
      exact (List.mem_filter.mp hw).1
    rw [mapEntries, mapEntries]
    refine bind_congr fun k => if_congr Iff.rfl ?_ ?_
    · exact flatMapM_congr fun u hu => hnext (List.mem_filter.mp hu).1 st
    · exact flatMapM_congr fun u hu => bind_congr fun sts => flatMapM_congr fun st' _ => hnext hu st'

theorem setElements_congr {ops : CollectionOps} {sBase base base' : List Term}
    (hb : List.Forall₂ (Agree (fun _ => True) go go') base base') :
    ∀ (es unused : List Term) (st : MatchState), setElements go deeper ops sBase base es unused st =
      setElements go' deeper ops sBase base' es unused st
  | [], unused, st => bind_congr fun r => rest_congr hb r st
  | e :: es, unused, st => by
    rw [setElements, setElements]
    refine bind_congr fun e' => flatMapM_congr fun s _ => bind_congr fun sts => ?_
    exact flatMapM_congr fun st' _ => setElements_congr hb es _ st'

theorem cells_congr {sFrames pFrames : List Var} {cs cs' : List Cell}
    (h : List.Forall₂ (fun c c' => c.label = c'.label ∧ Agree S go go' c.content c'.content) cs cs') :
    ∀ {unused : List (Nat × Cell)}, (∀ u ∈ unused, S u.2.content) → ∀ st,
      cells go sFrames pFrames cs unused st = cells go' sFrames pFrames cs' unused st := by
  induction h with
  | nil => exact fun _ _ => rfl
  | @cons c c' cs cs' hc _ ih =>
    intro unused hunused st
    rw [cells, cells, ← hc.1]
    refine flatMapM_congr fun u hu => ?_
    have hu := (List.mem_filter.mp hu).1
    rw [hc.2 _ (hunused u hu) st]
    refine bind_congr fun sts => flatMapM_congr fun st' _ => ih (fun w hw => hunused w ?_) st'
    exact (List.mem_filter.mp hw).1

theorem branches_congr {bs : List Term.Branch} {s : Term}
    (h : ∀ b ∈ bs, ∀ st, go b.1 s st = go' b.1 s st) (st : MatchState) :
    branches go bs s st = branches go' bs s st := by
  refine flatMapM_congr fun b hb => ?_
  dsimp only
  rw [h b (mem_candidateBranches hb)]

/-! ### One level of a match -/

section Node
variable {p q s : Term} (hS : ∀ c ∈ s.children, S c) (hs : S s)
include hS hs

theorem sequenceView_all : ∀ c ∈ (sequenceView s).1, S c := by
  unfold sequenceView
  split
  · rename_i hn
    rw [Term.children, hn] at hS
    exact hS
  · split
    · exact List.forall_mem_nil _
    · exact List.forall_mem_singleton.mpr hs
  · exact List.forall_mem_singleton.mpr hs

theorem operandsOf?_all {ops : CollectionOps} {parts : ListParts} (h : operandsOf? ops s = some parts) :
    ∀ c ∈ parts.left ++ (parts.base ++ parts.right), S c := by
  have hself (c : Term) (hc : c ∈ [s]) : S c := by rwa [List.mem_singleton.mp hc]
  unfold operandsOf? at h
  split at h
  · cases h
  split at h
  · rename_i hn
    split at h
    · cases h
      rwa [Term.children, hn] at hS
    · cases h
  · cases h
    split
    · exact hself
    · exact hself
  · cases h
    split
    · exact List.forall_mem_nil _
    · exact hself

theorem listView?_all {ops : CollectionOps} {parts : ListParts} (h : listView? ops s = some parts) :
    ∀ c ∈ parts.left ++ (parts.base ++ parts.right), S c := by
  unfold listView? at h
  split at h
  · rename_i hn
    cases h
    rwa [Term.children, hn] at hS
  · exact operandsOf?_all hS hs h

/-- Patterns that are not only compared find the same if their nodes agree. -/
theorem node_congr (hp : isCompared p = false) (hq : isCompared q = false)
    (h : NodesAgree S go go' p.node q.node) (st : MatchState) :
    node go deeper p s st = node go' deeper q s st := by
  have hpart {m : Node Term} (hn : s.node = m) : ∀ c ∈ m.children, S c := by
    rw [← hn]
    exact hS
  unfold node
  rw [isCompared] at hp hq
  rw [if_neg (by rw [hp]; exact Bool.false_ne_true), if_neg (by rw [hq]; exact Bool.false_ne_true)]
  generalize p.node = m, q.node = n at h
  cases h with
  | leaf hn => cases m <;> first | rfl | cases hn
  | app h =>
    cases hn : s.node with
    | app label ss k =>
      cases label with
      | const l' =>
        dsimp only
        rw [← h.length_eq]
        exact if_congr Iff.rfl (pairs_congr (aligned_zip h (hpart hn)) _) rfl
      | freezer => rfl
    | _ => rfl
  | freezer hf h =>
    cases hn : s.node with
    | app label ss k =>
      cases label with
      | const => rfl
      | freezer g' =>
        obtain ⟨hg, hss⟩ := List.forall_mem_cons.mp (hpart hn)
        dsimp only
        rw [← h.length_eq, hf g' hg st]
        refine if_congr Iff.rfl (bind_congr fun sts => flatMapM_congr fun st' _ => ?_) rfl
        exact pairs_congr (aligned_zip h hss) _
    | _ => rfl
  | seq h => exact sequence_congr h (sequenceView_all hS hs) st
  | @list ops left left' base base' right right' hl hb hr =>
    have hview (parts : ListParts) (hparts : listView? ops s = some parts) :
        (if parts.ops = ops then list go { ops, left, base, right } parts st else pure []) =
          if parts.ops = ops then
            list go' { ops, left := left', base := base', right := right' } parts st else pure [] := by
      have hall := listView?_all hS hs hparts
      simp only [List.forall_mem_append] at hall
      exact if_congr Iff.rfl (list_congr hl hb hr hall.1 hall.2.1 hall.2.2 st) rfl
    dsimp only
    split
    · rename_i hparts
      exact hview _ hparts
    · rfl
  | map he hb =>
    cases hn : s.node with
    | map ops' entries' base' =>
      refine if_congr Iff.rfl (mapEntries_congr hb he (fun u hu => hpart hn _ ?_) st) rfl
      exact List.mem_append_left _ (List.mem_flatMap.mpr ⟨u, hu, List.mem_cons_of_mem _ List.mem_cons_self⟩)
    | _ => rfl
  | set hb =>
    cases s.node with
    | set ops' elements' base' => exact if_congr Iff.rfl (setElements_congr hb _ _ st) rfl
    | _ => rfl
  | cells h =>
    cases hn : s.node with
    | cells cs' frames' =>
      refine cells_congr h (fun u hu => hpart hn _ ?_) st
      obtain ⟨i, hi, rfl⟩ := List.mem_mapIdx.mp hu
      exact List.mem_map_of_mem (List.getElem_mem hi)
    | _ => rfl
  | rewrite h => exact h s hs st
  | disjunction h => exact branches_congr (fun b hb => h b hb s hs) st
  | rightSides => rfl

end Node

/-! ### Bounds -/

/-- A node agrees with itself if smaller terms do. -/
theorem NodesAgree.refl {t : Term} (h : ∀ c : Term, c.size < t.size → Agree (fun _ => True) go go' c c) :
    NodesAgree (fun _ => True) go go' t.node t.node := by
  have hchild (c : Term) (hc : c ∈ t.node.children) : Agree (fun _ => True) go go' c c :=
    h c (Term.size_child hc)
  generalize hn : t.node = n at hchild
  have hall {ts : List Term} (hts : ∀ c ∈ ts, c ∈ n.children) :
      List.Forall₂ (Agree (fun _ => True) go go') ts ts :=
    List.forall₂_same.mpr fun c hc => hchild c (hts c hc)
  cases n with
  | app label args s =>
    cases label with
    | const l => exact .app (hall fun _ h => h)
    | freezer f => exact .freezer (hchild f List.mem_cons_self) (hall fun _ => List.mem_cons_of_mem f)
  | seq items frame => exact .seq (List.forall₂_same.mpr fun c hc => ⟨hchild c hc, rfl⟩)
  | list ops left base right =>
    refine .list (hall fun _ => List.mem_append_left _) (List.forall₂_same.mpr fun b hb => ?_)
      (hall fun _ h => List.mem_append_right _ (List.mem_append_right _ h))
    have hb := List.mem_append_right left (List.mem_append_left right hb)
    by_cases hlist : ∃ ops left base right, b.node = .list ops left base right
    · obtain ⟨ops', run, base', right', hbn⟩ := hlist
      refine .run hbn hbn rfl (List.forall₂_same.mpr fun c hc => h c ?_) (hchild b hb)
      have hc : c ∈ b.children := by
        rw [Term.children, hbn]
        exact List.mem_append_left _ hc
      have hb : b ∈ t.children := by
        rw [Term.children, hn]
        exact hb
      exact Nat.lt_trans (Term.size_child hc) (Term.size_child hb)
    · push Not at hlist
      exact .part hlist hlist (hchild b hb)
  | map ops es base =>
    refine .map (List.forall₂_same.mpr fun e he => ⟨rfl, hchild e.2 ?_⟩) (hall fun _ => List.mem_append_right _)
    exact List.mem_append_left _ (List.mem_flatMap.mpr ⟨e, he, List.mem_cons_of_mem _ List.mem_cons_self⟩)
  | set ops es base => exact .set (hall fun _ => List.mem_append_right _)
  | cells cs frames =>
    exact .cells (List.forall₂_same.mpr fun c hc => ⟨rfl, hchild c.content (List.mem_map_of_mem hc)⟩)
  | rewrite l r => exact .rewrite (hchild l List.mem_cons_self)
  | disjunction bs => exact .disjunction fun b hb => hchild b.1 (List.mem_map_of_mem hb)
  | rightSides => exact .rightSides
  | _ => exact .leaf rfl

/-- Any bound that is as large as the pattern will do, and marks do not matter. -/
theorem upTo_agree {p q : Term} (h : q.node = p.node) {n m : Nat} (hn : p.size ≤ n) (hm : p.size ≤ m) :
    Agree (fun _ => True) (upTo deeper n) (upTo deeper m) p q := by
  induction n generalizing p q m with
  | zero =>
    have := p.size_pos
    omega
  | succ n ih =>
    cases m with
    | zero =>
      have := p.size_pos
      omega
    | succ m =>
      intro s _ st
      have hbeq : q == p := Term.beq_of_node_eq h
      have hsame : isCompared q = isCompared p := by
        cases p
        cases q
        cases h
        rfl
      rw [upTo, upTo]
      cases hp : isCompared p with
      | true =>
        have hs : (p == s) = (q == s) := by
          rw [Bool.eq_iff_iff]
          exact ⟨BEq.trans hbeq, BEq.trans (BEq.symm hbeq)⟩
        rw [node_compares hp, node_compares (hsame.trans hp), hs]
      | false =>
        have hnode : NodesAgree (fun _ => True) (upTo deeper n) (upTo deeper m) p.node p.node :=
          .refl fun c hc => ih rfl (by omega) (by omega)
        exact node_congr (fun _ _ => trivial) trivial hp (hsame.trans hp) (by rwa [h]) st

end RuleCompiler.Matching
