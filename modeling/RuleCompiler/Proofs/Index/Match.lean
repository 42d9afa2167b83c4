import RuleCompiler.Proofs.Index.Pair
import RuleCompiler.Proofs.Matching.Cells

/-! # Matching terms have compatible pairs

`Agrees` collects what the index says about a pattern and a subject that match. It holds as soon as
it holds of the parts, one fact at a time, so it holds of every match. -/

namespace RuleCompiler

open Matching
open Term (Tidy)

/-- What the index says about a pattern and a subject that it matches. -/
structure Agrees (settings : IndexSettings) (p s : Term) : Prop where
  hole : p.isHole → s.isHole
  holes : ∀ {l ps k}, p.node = .app (.const l) ps k → ∃ ss k', s.node = .app (.const l) ss k' ∧
    List.Forall₂ (fun p s : Term => p.isHole → s.isHole) ps ss
  index : (settings.index p).compatible (settings.index s)
  run : s.isRun → settings.index p = .top
  pair : (p.isOperatorList → s.isRun = false) →
    (settings.pairOf p).compatible (settings.pairOf s)

namespace Agrees
open IndexPair

variable {settings : IndexSettings} {σ : Substitution} {p s : Term}

/-- The index of the pattern is compatible with the first position of the subject. -/
theorem first (h : Agrees settings p s) :
    (settings.index p).compatible (settings.pairOf s).first := by
  cases hs : s.isRun with
  | false => exact settings.first_pairOf hs h.index
  | true =>
    rw [h.run hs]
    exact Index.top_compatible _

/-- A pattern whose index is open agrees when its pair does. -/
theorem of_top (hole : p.isHole = false) (happ : ∀ l ps k, p.node ≠ .app (.const l) ps k)
    (hindex : settings.index p = .top)
    (hpair : (p.isOperatorList → s.isRun = false) →
      (settings.pairOf p).compatible (settings.pairOf s)) : Agrees settings p s where
  hole h := by rw [hole] at h; cases h
  holes h := absurd h (happ _ _ _)
  index := by rw [hindex]; exact Index.top_compatible _
  run _ := hindex
  pair := hpair

/-- Two terms of one position agree when their indices do. -/
theorem pair_of_single (hp : (settings.pairOf p).IsSingle) (hs : (settings.pairOf s).IsSingle)
    (h : (settings.pairOf p).first.compatible (settings.pairOf s).first) :
    (settings.pairOf p).compatible (settings.pairOf s) :=
  hp.compatible hs h

theorem of_beq (h : p == s) : Agrees settings p s where
  hole hp := by rwa [← Term.isHole_congr h]
  holes hp := by
    have h := Term.alike_of_beq h
    rw [hp] at h
    generalize s.node = n at h
    cases h with
    | app h => exact ⟨_, _, rfl, h.imp fun _ _ h => by rw [Term.isHole_congr h]; exact id⟩
  index := by
    rw [IndexSettings.index, Index.ofTerm_congr h]
    exact Index.compatible_iff.mpr (.inr (.inr rfl))
  run hs := by
    rw [IndexSettings.index, Index.ofTerm_congr h]
    exact settings.index_of_isRun hs
  pair _ := by
    rw [settings.pairOf_congr h]
    exact compatible_refl _

theorem of_var {v : Var} (hp : p.node = .var v) (h : Bound σ v s) : Agrees settings p s := by
  have hindex : settings.index p = .top := by
    rw [IndexSettings.index, Index.ofTerm_eq, hp]
  have hvar : p.asVar? = some v := by rw [Term.asVar?, hp]
  refine of_top (by rw [Term.isHole, hp]) (fun l ps k h => by rw [hp] at h; cases h) hindex fun _ => ?_
  have hpair : settings.pairOf p = settings.single p := by rw [IndexSettings.pairOf_eq, hp]
  cases hs : s.isRun with
  | false =>
    have hfirst : (settings.pairOf p).first = .top := by
      rw [hpair, IndexSettings.single]
      split
      · rfl
      · exact hindex
    refine pair_of_single (hpair ▸ settings.isSingle_single p) (settings.isSingle_pairOf hs) ?_
    rw [hfirst]
    exact Index.top_compatible _
  | true =>
    -- a variable that takes a run stands for anything
    have htop : settings.pairOf p = top := by
      rw [hpair, IndexSettings.single, if_pos]
      have hsort : p.sort = v.sort := by rw [Term.sort_eq, hp]
      have hisVar : p.isVar := by rw [Term.isVar, hp]; rfl
      have hsub := h.1
      rw [hvar, IndexPair.isSegment, hsort, hisVar]
      rcases Term.sort_of_isRun hs with hs | hs <;> rw [hs] at hsub <;>
        simp [SortName.subsortOf] at hsub ⊢ <;> grind
    rw [htop]
    exact top_compatible _

theorem of_rewrite {l r : Term} (hp : p.node = .rewrite l r) (h : Agrees settings l s) :
    Agrees settings p s where
  hole hhole := by rw [Term.isHole, hp] at hhole; cases hhole
  holes happ := by rw [hp] at happ; cases happ
  index := by
    rw [IndexSettings.index, Index.ofTerm_eq, hp]
    exact h.index
  run hs := by
    rw [IndexSettings.index, Index.ofTerm_eq, hp]
    exact h.run hs
  pair hlist := by
    rw [Term.isOperatorList_eq, hp] at hlist
    rw [settings.pairOf_eq, hp]
    exact h.pair hlist

theorem of_disjunction {bs : List Term.Branch} (hp : p.node = .disjunction bs) :
    Agrees settings p s := by
  refine of_top (by rw [Term.isHole, hp]) (by rw [hp]; nofun)
    (by rw [IndexSettings.index, Index.ofTerm_eq, hp]) fun _ => ?_
  rw [settings.pairOf_of_segment (by rw [isSegment, Term.sort_eq, hp]; rfl)
    (by rw [Term.isRewrite, hp]) (by rw [Term.isRun_eq, hp])]
  exact top_compatible _

/-- Collections that are no cells take one position of which the index says nothing. -/
theorem of_collection (hole : p.isHole = false) (happ : ∀ l ps k, p.node ≠ .app (.const l) ps k)
    (hindex : settings.index p = .top) (hpair : settings.pairOf p = settings.single p)
    (hs : (p.isOperatorList → s.isRun = false) → s.isRun = false) : Agrees settings p s := by
  refine of_top hole happ hindex fun hlist => ?_
  refine pair_of_single (hpair ▸ settings.isSingle_single p)
    (settings.isSingle_pairOf (hs hlist)) ?_
  have hfirst : (settings.pairOf p).first = .top := by
    rw [hpair, IndexSettings.single]
    split
    · rfl
    · exact hindex
  rw [hfirst]
  exact Index.top_compatible _

/-- Applications agree when the indices of their heads do. -/
theorem of_index {l l' : Label} {ps ss : List Term} {kp ks : SortName}
    (hp : p.node = .app l ps kp) (hs : s.node = .app l' ss ks)
    (hindex : (settings.index p).compatible (settings.index s))
    (holes : ∀ {l ps k}, p.node = .app (.const l) ps k →
      ∃ ss k', s.node = .app (.const l) ss k' ∧
        List.Forall₂ (fun p s : Term => p.isHole → s.isHole) ps ss) :
    Agrees settings p s := by
  have hrun : s.isRun = false := by rw [Term.isRun_eq, hs]
  have hpair : settings.pairOf p = settings.single p := by rw [settings.pairOf_eq, hp]
  refine { hole := fun h => ?_, holes := holes, index := hindex, run := fun h => ?_,
           pair := fun _ => ?_ }
  · rw [Term.isHole, hp] at h
    cases h
  · rw [hrun] at h
    cases h
  · refine pair_of_single (hpair ▸ settings.isSingle_single p) (settings.isSingle_pairOf hrun) ?_
    have hfirst := settings.first_pairOf hrun hindex
    rw [hpair, IndexSettings.single]
    split
    · exact Index.top_compatible _
    · exact hfirst

theorem of_app {l : String} {ps ss : List Term} {kp ks : SortName}
    (hp : p.node = .app (.const l) ps kp) (hs : s.node = .app (.const l) ss ks)
    (h : List.Forall₂ (Agrees settings) ps ss) : Agrees settings p s := by
  refine of_index hp hs ?_ fun {l' ps' k} happ => ?_
  · rw [IndexSettings.index, Index.ofTerm_eq, Index.ofTerm_eq, hp, hs]
    exact Index.compatible_iff.mpr (.inr (.inr rfl))
  · rw [hp] at happ
    cases happ
    exact ⟨ss, ks, hs, h.imp fun _ _ h => h.hole⟩

theorem of_freezer {f g : Term} {ps ss : List Term} {kp ks : SortName}
    (hp : p.node = .app (.freezer f) ps kp) (hs : s.node = .app (.freezer g) ss ks)
    (h : Agrees settings f g) (hg : g.frozenHoles.length ≤ 1) : Agrees settings p s := by
  refine of_index hp hs ?_ fun happ => ?_
  · rw [IndexSettings.index, Index.ofTerm_eq, Index.ofTerm_eq, hp, hs]
    dsimp only
    cases hf : f.frozenHole? with
    | none => exact Index.top_compatible _
    | some hole =>
      obtain ⟨l, i⟩ := hole
      unfold Term.frozenHole? at hf
      split at hf
      · rename_i l' as k hnode
        obtain ⟨j, hj, heq⟩ := Option.map_eq_some_iff.mp hf
        cases heq
        obtain ⟨bs, k', hgnode, hholes⟩ := h.holes hnode
        have hbs : (bs.filter (·.isHole)).length ≤ 1 := by
          rwa [Term.frozenHoles, Term.children, hgnode] at hg
        rw [Term.frozenHole?, hgnode]
        dsimp only
        rw [PairedLists.findIdx?_eq hholes hbs hj]
        exact Index.compatible_iff.mpr (.inr (.inr rfl))
      · cases hf
  · rw [hp] at happ
    cases happ

/-! ### Sequences -/

theorem isSegment_of_segment? {t : Term} {v : Var} (h : segment? t = some v) :
    isSegment t = true := by
  obtain ⟨hv, hsort⟩ := Option.filter_eq_some_iff.mp h
  obtain ⟨m, n⟩ := t
  cases n with
  | var w =>
    cases hv
    rw [isSegment, Term.sort_eq]
    simp_all
  | _ => cases hv

/-- The known items are the first items of the subject, and all of them if there is no segment
and no frame. -/
theorem known_of_sequenceFits {R : Term → Term → Prop} {pFrame sFrame : Option Var}
    {ps ss : List Term} (h : SequenceFits R σ pFrame sFrame ps ss) :
    ∃ front back, ss = front ++ back ∧ List.Forall₂ R (known ps) front ∧
      (pFrame = none → (known ps).length = ps.length → back = [] ∧ sFrame = none) := by
  induction h with
  | closed hp hs => exact ⟨[], [], rfl, .nil, fun _ _ => ⟨rfl, hs⟩⟩
  | @frame f ss rest hp => exact ⟨[], ss, rfl, .nil, fun h => by rw [h] at hp; cases hp⟩
  | @lastSegment p v ss rest hv | @segment p v ps front back run hv =>
    have hknown (ps : List Term) : known (p :: ps) = [] :=
      List.takeWhile_cons_of_neg (by simp [isSegment_of_segment? hv])
    rw [hknown]
    exact ⟨[], _, rfl, .nil, fun _ h => by cases h⟩
  | @item p s ps ss hv hs h ih =>
    obtain ⟨front, back, rfl, hfront, hend⟩ := ih
    cases hp : isSegment p with
    | true =>
      have hknown : known (p :: ps) = [] := List.takeWhile_cons_of_neg (by simp [hp])
      rw [hknown]
      exact ⟨[], _, rfl, .nil, fun _ h => by cases h⟩
    | false =>
      have hknown : known (p :: ps) = p :: known ps := List.takeWhile_cons_of_pos (by simp [hp])
      rw [hknown]
      exact ⟨s :: front, back, rfl, .cons hs hfront, fun h hlen => hend h (Nat.succ.inj hlen)⟩

/-- Each position of a sequence pattern is compatible with that of a sequence that fits. -/
theorem positionOf_compatible {pFrame sFrame : Option Var} {ps ss : List Term}
    (h : SequenceFits (Agrees settings) σ pFrame sFrame ps ss) (i : Nat) :
    (settings.positionOf ps pFrame i).compatible (settings.positionOf ss sFrame i) := by
  obtain ⟨front, back, rfl, hfront, hend⟩ := known_of_sequenceFits h
  rcases settings.positionOf_cases (front ++ back) sFrame i with
    hs | ⟨t, ht, hs⟩ | ⟨hs, hlen, -, -⟩ <;> rw [hs]
  · exact Index.compatible_top _
  all_goals
    rcases settings.positionOf_cases ps pFrame i with
      hp | ⟨u, hu, hp⟩ | ⟨hp, hplen, hframe, hknown⟩ <;> rw [hp]
  · exact Index.top_compatible _
  · obtain ⟨u', hu', hagrees⟩ := PairedLists.exists_getElem? hfront hu
    have hitem : (front ++ back)[i]? = front[i]? :=
      List.getElem?_append_left (List.getElem?_eq_some_iff.mp hu').1
    rw [getElem?_of_known ht, hu'] at hitem
    cases hitem
    exact hagrees.index
  · -- the subject is no longer than the pattern
    obtain ⟨rfl, -⟩ := hend hframe hknown
    have hi := (List.getElem?_eq_some_iff.mp (getElem?_of_known ht)).1
    rw [List.append_nil, ← hfront.length_eq] at hi
    omega
  · exact Index.top_compatible _
  · obtain ⟨u', hu', -⟩ := PairedLists.exists_getElem? hfront hu
    have hi := (List.getElem?_eq_some_iff.mp hu').1
    rw [List.length_append] at hlen
    omega
  · rfl

/-- A sequence pattern against a single item: the second position is open, since no sequence is a
single item. -/
theorem pair_of_item {items : List Term} {frame : Option Var} (hp : p.node = .seq items frame)
    (htidy : p.node.isTidy) (h : SequenceFits (Agrees settings) σ frame none items [s]) :
    (settings.pairOf p).compatible (settings.pairOf s) := by
  obtain ⟨front, back, happend, hfront, hend⟩ := known_of_sequenceFits h
  have hlen : front.length + back.length = 1 := by
    rw [← List.length_append, ← happend]
    rfl
  rw [settings.pairOf_seq hp]
  refine compatible_iff.mpr ⟨?_, ?_⟩ <;> dsimp only
  · rcases settings.positionOf_cases items frame 0 with ht | ⟨t, ht, heq⟩ | ⟨-, hz, hf, hk⟩
    · rw [ht]
      exact Index.top_compatible _
    · obtain ⟨u, hu, hagrees⟩ := PairedLists.exists_getElem? hfront ht
      have hitem : (front ++ back)[0]? = front[0]? :=
        List.getElem?_append_left (List.getElem?_eq_some_iff.mp hu).1
      rw [← happend, hu] at hitem
      cases hitem
      rw [heq]
      exact hagrees.first
    · rw [(hend hf hk).1, ← hfront.length_eq, hk, List.length_nil] at hlen
      omega
  · have htop : settings.positionOf items frame 1 = .top := by
      rcases settings.positionOf_cases items frame 1 with ht | ⟨t, ht, -⟩ | ⟨-, -, hf, hk⟩
      · exact ht
      · obtain ⟨u, hu, -⟩ := PairedLists.exists_getElem? hfront ht
        have := (List.getElem?_eq_some_iff.mp hu).1
        omega
      · rw [(hend hf hk).1, ← hfront.length_eq, hk] at hlen
        obtain ⟨x, rfl⟩ := List.length_eq_one_iff.mp hlen
        rw [hp, hf] at htidy
        cases htidy
    rw [htop]
    exact Index.top_compatible _

theorem of_sequence {items : List Term} {frame : Option Var} (hp : p.node = .seq items frame)
    (htidy : p.node.isTidy)
    (h : SequenceFits (Agrees settings) σ frame (sequenceView s).2 items (sequenceView s).1) :
    Agrees settings p s := by
  refine of_top (by rw [Term.isHole, hp]) (by rw [hp]; nofun)
    (by rw [IndexSettings.index, Index.ofTerm_eq, hp]) fun _ => ?_
  unfold sequenceView at h
  split at h
  · rename_i hs
    rw [settings.pairOf_seq hp, settings.pairOf_seq hs]
    exact compatible_iff.mpr ⟨positionOf_compatible h 0, positionOf_compatible h 1⟩
  · rename_i v hs
    split at h
    · rename_i hsort
      have hsort : s.sort = .k := by rw [Term.sort_eq, hs]; exact hsort
      have htop : settings.pairOf s = top := settings.pairOf_of_segment
        (by rw [isSegment, hsort]; rfl) (by rw [Term.isRewrite, hs]) (by rw [Term.isRun_eq, hs])
      rw [htop]
      exact compatible_top _
    · exact pair_of_item hp htidy h
  · exact pair_of_item hp htidy h

/-! ### Collections -/

theorem of_list {ops : CollectionOps} {left base right : List Term} {parts : ListParts}
    (hp : p.node = .list ops left base right) (hs : listView? ops s = some parts) :
    Agrees settings p s := by
  refine of_collection (by rw [Term.isHole, hp]) (by rw [hp]; nofun)
    (by rw [IndexSettings.index, Index.ofTerm_eq, hp]) (by rw [settings.pairOf_eq, hp]) fun h => ?_
  unfold listView? at hs
  split at hs
  · rename_i hnode
    rw [Term.isRun_eq, hnode]
  · refine h ?_
    rw [Term.isOperatorList_eq, hp]
    by_contra hops
    rw [operandsOf?, if_pos (by simpa using hops)] at hs
    cases hs

theorem of_map {ops ops' : CollectionOps} {es es' : List (Term × Term)} {base base' : List Term}
    (hp : p.node = .map ops es base) (hs : s.node = .map ops' es' base') :
    Agrees settings p s :=
  of_collection (by rw [Term.isHole, hp]) (by rw [hp]; nofun)
    (by rw [IndexSettings.index, Index.ofTerm_eq, hp]) (by rw [settings.pairOf_eq, hp])
    fun _ => by rw [Term.isRun_eq, hs]

theorem of_set {ops ops' : CollectionOps} {es es' base base' : List Term}
    (hp : p.node = .set ops es base) (hs : s.node = .set ops' es' base') :
    Agrees settings p s :=
  of_collection (by rw [Term.isHole, hp]) (by rw [hp]; nofun)
    (by rw [IndexSettings.index, Index.ofTerm_eq, hp]) (by rw [settings.pairOf_eq, hp])
    fun _ => by rw [Term.isRun_eq, hs]

/-- Closed cells are told by their labels, which pattern and subject share. -/
theorem of_cells {R : Term → Term → Prop} {cs cs' : List Cell} {fs fs' : List Var}
    (hp : p.node = .cells cs fs) (hs : s.node = .cells cs' fs') (hptidy : p.node.isTidy)
    (hstidy : s.node.isTidy) (h : CellsFit R σ fs' fs cs (cs'.mapIdx fun i c => (i, c))) :
    Agrees settings p s := by
  refine of_top (by rw [Term.isHole, hp]) (by rw [hp]; nofun)
    (by rw [IndexSettings.index, Index.ofTerm_eq, hp]) fun _ => ?_
  rw [settings.pairOf_eq, settings.pairOf_eq, hp, hs]
  dsimp only
  cases fs with
  | cons => exact top_compatible _
  | nil =>
    rw [hp, Node.isTidy, decide_eq_true_eq] at hptidy
    rw [hs, Node.isTidy, decide_eq_true_eq] at hstidy
    obtain ⟨hlabels, rfl⟩ := labels_eq_of_cells h hptidy hstidy
    have hindices := congrArg (List.map Index.label) hlabels
    rw [List.map_map, List.map_map] at hindices
    change (ofPositions _ false).compatible (ofPositions _ false)
    rw [← Function.comp_def Index.label, hindices]
    exact compatible_refl _

end Agrees

end RuleCompiler
