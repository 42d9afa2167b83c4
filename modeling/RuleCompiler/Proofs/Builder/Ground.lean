import RuleCompiler.Matching
import RuleCompiler.Proofs.Term.Expr
import RuleCompiler.Proofs.Term.Tidy

/-! # Builders on ground terms

Without variables a builder does the same whatever nodes it is given and however it numbers new ones:
sequences and lists are spliced, maps, sets and cells merged. A ground term that a builder made is
made again from parts that put together the same items, entries, elements or cells. Here: terms that
are equal one by one, and sequences. -/

namespace RuleCompiler

open Build (Always)

/-- Terms equal one by one. -/
abbrev Term.Equal (ts us : List Term) : Prop := List.Forall₂ (fun t u : Term => t == u) ts us

namespace Term

/-! ### Equal terms -/

theorem equal_iff {ts us : List Term} : Equal ts us ↔ ts.map code = us.map code := by
  refine ⟨fun h => PairedLists.map_eq (h.imp fun _ _ h => beq_iff.mp h), fun h => ?_⟩
  exact PairedLists.of_map_eq (fun _ _ => beq_iff.mpr) h

theorem Equal.refl (ts : List Term) : Equal ts ts := by rw [equal_iff]

theorem Equal.symm {ts us : List Term} (h : Equal ts us) : Equal us ts := by
  rw [equal_iff] at h ⊢
  exact h.symm

theorem Equal.trans {ts us vs : List Term} (h : Equal ts us) (h' : Equal us vs) : Equal ts vs := by
  rw [equal_iff] at h h' ⊢
  exact h.trans h'

theorem Equal.append {ts us ts' us' : List Term} (h : Equal ts us) (h' : Equal ts' us') :
    Equal (ts ++ ts') (us ++ us') := by
  rw [equal_iff] at h h' ⊢
  rw [List.map_append, List.map_append, h, h']

theorem Equal.exists_append {ts us vs : List Term} (h : Equal ts (us ++ vs)) :
    ∃ us' vs', ts = us' ++ vs' ∧ Equal us' us ∧ Equal vs' vs :=
  ⟨_, _, (List.take_append_drop us.length ts).symm, List.forall₂_take_append ts us vs h,
    List.forall₂_drop_append ts us vs h⟩

/-- Terms whose nodes are alike are equal. -/
theorem beq_of_alike {t u : Term} (h : Node.Alike (fun t u => t == u) t.node u.node) : t == u := by
  have hlist {as bs : List Term} (h : Equal as bs) : as.map code = bs.map code := equal_iff.mp h
  rw [beq_iff_mapChildren]
  generalize t.node = m, u.node = n at h
  cases h with
  | app h => simp only [Node.mapChildren, hlist h]
  | freezer hf h => simp only [Node.mapChildren, hlist h, beq_iff.mp hf]
  | seq h => simp only [Node.mapChildren, hlist h]
  | list hl hb hr => simp only [Node.mapChildren, hlist hl, hlist hb, hlist hr]
  | map he hb =>
    simp only [Node.mapChildren, hlist hb, Node.map.injEq, true_and, and_true]
    exact PairedLists.map_eq (he.imp fun e e' h => by rw [beq_iff.mp h.1, beq_iff.mp h.2])
  | set he hb => simp only [Node.mapChildren, hlist he, hlist hb]
  | cells h =>
    simp only [Node.mapChildren, Node.cells.injEq, and_true]
    exact PairedLists.map_eq (h.imp fun c c' h => by rw [h.1, h.2.1, beq_iff.mp h.2.2])
  | rewrite hl hr => simp only [Node.mapChildren, beq_iff.mp hl, beq_iff.mp hr]
  | disjunction h =>
    simp only [Node.mapChildren, Node.disjunction.injEq]
    exact PairedLists.map_eq (h.imp fun b b' h => by rw [beq_iff.mp h.1, h.2])
  | rightSides h =>
    simp only [Node.mapChildren, Node.rightSides.injEq]
    refine PairedLists.map_eq (h.imp fun o o' h => ?_)
    cases h with
    | none => rfl
    | some h => rw [Option.map_some, Option.map_some, beq_iff.mp h]
  | _ => rfl

theorem Equal.ground {ts us : List Term} (h : Equal ts us) (hus : ∀ u ∈ us, u.isGround) :
    ∀ t ∈ ts, t.isGround := by
  intro t ht
  obtain ⟨u, hu, htu⟩ := PairedLists.exists_mem h ht
  rw [isGround_congr htu]
  exact hus u hu

theorem isGround_child {t c : Term} (h : t.isGround) (hc : c ∈ t.children) : c.isGround :=
  (isGround_iff.mp h).2.1 c hc

theorem not_isVar_of_isGround {t : Term} (h : t.isGround) {v : Var} : t.node ≠ .var v := by
  intro hn
  have hvar := (isGround_iff.mp h).1
  rw [isVar, hn] at hvar
  cases hvar

/-! ### Sorted terms -/

theorem isLE_antisymm {a b : List Symbol} (h : (cmpCode a b).isLE) (h' : (cmpCode b a).isLE) :
    a = b :=
  Std.LawfulEqCmp.eq_of_compare (Std.OrientedCmp.isLE_antisymm h h')

/-- Sorted rearrangements of equal terms are equal. -/
theorem equal_of_sorted {ts us : List Term} (h : (ts.map code).Perm (us.map code))
    (hts : ts.Pairwise fun t u => (t.cmp u).isLE) (hus : us.Pairwise fun t u => (t.cmp u).isLE) :
    Equal ts us :=
  equal_iff.mpr <| SortedList.map_eq_of_perm (r := fun a b => (cmpCode a b).isLE) isLE_antisymm h
    hts hus

/-- Lists of terms with the same elements, sorted. -/
theorem equal_sort {ts us : List Term} (h : (ts.map code).Perm (us.map code)) :
    Equal (SortedList.sort cmp ts) (SortedList.sort cmp us) := by
  refine equal_of_sorted ?_ (SortedList.sorted_sort ts) (SortedList.sorted_sort us)
  exact ((SortedList.perm_sort ts).map _).trans (h.trans ((SortedList.perm_sort us).map _).symm)

/-- Terms equal to sorted ones are sorted, whichever order `P` asks for. -/
theorem Equal.pairwise_cmp {P : Ordering → Prop} {ts us : List Term} (h : Equal ts us)
    (hus : us.Pairwise fun t u => P (t.cmp u)) : ts.Pairwise fun t u => P (t.cmp u) := by
  have hcodes : (us.map code).Pairwise fun a b => P (cmpCode a b) := List.pairwise_map.mpr hus
  exact List.pairwise_map.mp (equal_iff.mp h ▸ hcodes)

/-- What equal terms have in common holds of all of them. -/
theorem Equal.forall_mem {p : Term → Bool} (hp : ∀ {t u : Term}, t == u → p t = p u) {ts us : List Term}
    (h : Equal ts us) (hus : ∀ u ∈ us, p u) : ∀ t ∈ ts, p t := by
  intro t ht
  obtain ⟨u, hu, htu⟩ := PairedLists.exists_mem h ht
  rw [hp htu]
  exact hus u hu

theorem beq_false_of_lt {t u : Term} (h : t.cmp u = .lt) : (t == u) = false := by
  rw [← Bool.not_eq_true, ← cmp_eq_iff, h]
  exact Ordering.noConfusion

theorem not_lt_lt {a b : List Symbol} (h : cmpCode a b = .lt) (h' : cmpCode b a = .lt) : False := by
  rw [Std.OrientedCmp.gt_of_lt h'] at h
  cases h

end Term

theorem CollectionOps.isUnit_congr {ops : CollectionOps} {t u : Term} (h : t == u) :
    ops.isUnit t = ops.isUnit u := by
  have h := Term.alike_of_beq h
  rw [CollectionOps.isUnit, CollectionOps.isUnit]
  generalize t.node = m, u.node = n at h
  cases h with
  | app h => cases h <;> rfl
  | _ => rfl

/-! ### Sequences -/

/-- The items of a term read as a sequence. -/
abbrev Term.items (t : Term) : List Term := (Matching.sequenceView t).1

namespace Term
variable {t u : Term}

theorem items_of_seq {ts : List Term} {frame : Option Var} (hn : t.node = .seq ts frame) :
    t.items = ts := by
  rw [items, Matching.sequenceView, hn]

theorem items_of_not_seq (ht : t.isGround) (h : ∀ items frame, t.node ≠ .seq items frame) :
    t.items = [t] := by
  rw [items, Matching.sequenceView]
  split
  · exact absurd ‹_› (h _ _)
  · exact absurd ‹_› (not_isVar_of_isGround ht)
  · rfl

theorem frame_of_isGround (ht : t.isGround) {items : List Term} {frame : Option Var}
    (hn : t.node = .seq items frame) : frame = none := by
  have hframes := (isGround_iff.mp ht).2.2
  rw [frames, hn] at hframes
  exact Option.toList_eq_nil_iff.mp hframes

theorem sequenceView_of_isGround (ht : t.isGround) : Matching.sequenceView t = (t.items, none) := by
  by_cases h : ∃ items frame, t.node = .seq items frame
  · obtain ⟨items, frame, hn⟩ := h
    rw [items_of_seq hn, Matching.sequenceView, hn, frame_of_isGround ht hn]
  · push Not at h
    rw [items_of_not_seq ht h, Matching.sequenceView]
    split
    · exact absurd ‹_› (h _ _)
    · exact absurd ‹_› (not_isVar_of_isGround ht)
    · rfl

theorem items_congr (h : t == u) : Equal t.items u.items := by
  have hself : Equal [t] [u] := .cons h .nil
  have halike := alike_of_beq h
  rw [items, items, Matching.sequenceView, Matching.sequenceView]
  generalize t.node = m, u.node = n at halike
  cases halike with
  | seq h => exact h
  | var =>
    dsimp only
    split
    · exact .nil
    · exact hself
  | _ => exact hself

end Term

namespace SequenceParts

theorem add_of_isGround {p : SequenceParts} {t : Term} (hp : p.frame = none) (ht : t.isGround) :
    p.add t = pure ⟨p.items ++ t.items, none⟩ := by
  have hall : p.allItems = pure p.items := by rw [allItems, hp]
  unfold add
  split
  · rename_i hn
    rw [Term.items_of_seq hn, List.append_nil, ← hp]
  · rename_i items frame _ hn
    rw [hall, pure_bind, Term.items_of_seq hn, Term.frame_of_isGround ht hn]
  · exact absurd ‹_› (Term.not_isVar_of_isGround ht)
  · rename_i hnil hseq hvar
    rw [hall, pure_bind, Term.items_of_not_seq ht fun items frame hn => ?_]
    exact hseq items frame hn

theorem addAll_of_isGround {ts : List Term} (hts : ∀ t ∈ ts, t.isGround) :
    ∀ {p : SequenceParts}, p.frame = none → p.addAll ts = pure ⟨p.items ++ ts.flatMap Term.items, none⟩ := by
  induction ts with
  | nil =>
    intro p hp
    rw [addAll, List.foldlM_nil, List.flatMap_nil, List.append_nil, ← hp]
  | cons t ts ih =>
    intro p hp
    obtain ⟨ht, hts⟩ := List.forall_mem_cons.mp hts
    rw [addAll, List.foldlM_cons, add_of_isGround hp ht, pure_bind, ← addAll, ih hts rfl,
      List.flatMap_cons, List.append_assoc]

end SequenceParts

theorem Term.sequence_of_isGround {ts : List Term} (hts : ∀ t ∈ ts, t.isGround) :
    Term.sequence ts = SequenceParts.build ⟨ts.flatMap Term.items, none⟩ := by
  rw [Term.sequence, SequenceParts.addAll_of_isGround hts rfl, pure_bind]
  rfl

theorem Term.always_new (n : Node Term) : Always (Term.new n) fun t => t.node = n := by
  unfold Term.new
  split
  · exact .pure rfl
  · exact fun k => ⟨_, k + 1, rfl, rfl⟩

namespace SequenceParts

/-- Whether there is more than a single item, and no item is a sequence itself. -/
def isNormal (p : SequenceParts) : Bool :=
  !(p.items.length == 1 && p.frame.isNone) && p.items.all fun t => match t.node with
    | .seq .. => false
    | _ => true

/-- The sequence of equal items is the term they are items of. -/
theorem always_build {ts : List Term} {s : Term} (hs : s.isGround)
    (hn : ∀ its frame, s.node = .seq its frame → isNormal ⟨its, frame⟩) (h : Term.Equal ts s.items) :
    Always (build ⟨ts, none⟩) (· == s) := by
  by_cases hseq : ∃ its frame, s.node = .seq its frame
  · obtain ⟨its, frame, hseq⟩ := hseq
    have hnormal := hn its frame hseq
    obtain rfl := Term.frame_of_isGround hs hseq
    rw [Term.items_of_seq hseq] at h
    have hlen : ts.length ≠ 1 := by
      intro hlen
      simp [isNormal, ← h.length_eq, hlen] at hnormal
    have hbuild : build ⟨ts, none⟩ = Term.new (.seq ts none) := by
      rcases ts with _ | ⟨t, _ | _⟩
      · rfl
      · exact absurd rfl hlen
      · rfl
    rw [hbuild]
    refine (Term.always_new _).mono fun t ht => Term.beq_of_alike ?_
    rw [ht, hseq]
    exact .seq h
  · push Not at hseq
    rw [Term.items_of_not_seq hs hseq] at h
    obtain ⟨t, rfl, ht⟩ : ∃ t, ts = [t] ∧ t == s := by
      cases h with
      | cons ht h => cases h with | nil => exact ⟨_, rfl, ht⟩
    exact .pure ht

/-- A run of items that are no sequences has these as its items. -/
theorem items_of_build {front : List Term} (hfront : ∀ t ∈ front, t.isGround ∧ t.items = [t]) :
    Returns (fun t => t.isGround ∧ t.items = front) (build ⟨front, none⟩) := by
  have hnew : Returns (fun t : Term => t.isGround ∧ t.items = front) (Term.new (.seq front none)) := by
    refine (Term.returns_new _).mono fun t hn => ⟨?_, Term.items_of_seq hn⟩
    rw [Term.isGround_iff, Term.isVar, Term.children, Term.frames, hn]
    exact ⟨rfl, fun c hc => (hfront c hc).1, rfl⟩
  rcases front with _ | ⟨t, _ | _⟩
  · exact hnew
  · exact .pure (hfront t List.mem_cons_self)
  · exact hnew

end SequenceParts

end RuleCompiler
