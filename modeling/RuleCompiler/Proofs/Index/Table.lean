import Mathlib.Data.Finset.Card
import Mathlib.Data.Finset.Dedup
import Mathlib.Data.Finset.Insert
import Mathlib.Data.List.Induction
import RuleCompiler.Definition
import RuleCompiler.Proofs.SortedList

/-! # What the index table finds

A rule is found for a subject exactly when the pair recorded for it is compatible with that of the
subject. What makes the drawers complete is `Filed`: a rule lies in the drawer of the first index
of its pair. -/

namespace RuleCompiler

theorem Index.compatible_top (i : Index) : i.compatible top = true := by cases i <;> rfl

theorem Index.top_compatible (i : Index) : top.compatible i = true := rfl

theorem Index.compatible_iff {i j : Index} : i.compatible j ↔ i = top ∨ j = top ∨ i = j := by
  cases i <;> cases j <;> simp [compatible]

theorem IndexPair.compatible_iff {p q : IndexPair} :
    p.compatible q ↔ p.first.compatible q.first ∧ p.second.compatible q.second := by
  rw [compatible, Bool.and_eq_true]

namespace IndexTable

/-! ### Drawers -/

theorem mem_file {i j : Index} {rule id : Nat} {ds : List (Index × List Nat)} :
    id ∈ (SortedList.get? j (file i rule ds)).getD [] ↔
      id ∈ (SortedList.get? j ds).getD [] ∨ (i = j ∧ id = rule) := by
  induction ds with
  | nil =>
    rw [file, SortedList.get?_cons]
    by_cases h : i = j <;> simp [h, SortedList.get?]
  | cons d ds ih =>
    rw [file, SortedList.get?_cons]
    by_cases hi : d.1 = i
    · rw [if_pos hi, SortedList.get?_cons]
      by_cases hj : d.1 = j <;> simp [hj, ← hi]
    · rw [if_neg hi, SortedList.get?_cons]
      by_cases hj : d.1 = j
      · have hij : i ≠ j := fun h => hi (hj.trans h.symm)
        simp [hj, hij]
      · rw [if_neg hj, if_neg hj, ih]

theorem mem_unfile {i j : Index} {rule id : Nat} {ds : List (Index × List Nat)} (h : id ≠ rule) :
    id ∈ (SortedList.get? j (unfile i rule ds)).getD [] ↔ id ∈ (SortedList.get? j ds).getD [] := by
  induction ds with
  | nil => rfl
  | cons d ds ih =>
    rw [unfile, List.map_cons, ← unfile, SortedList.get?_cons, SortedList.get?_cons]
    by_cases hi : d.1 = i
    · rw [if_pos hi]
      by_cases hj : d.1 = j
      · simp [hj, h]
      · rw [if_neg hj, if_neg hj, ih]
    · rw [if_neg hi]
      by_cases hj : d.1 = j
      · rw [if_pos hj, if_pos hj]
      · rw [if_neg hj, if_neg hj, ih]

/-! ### Pairs -/

theorem pair?_insert (t : IndexTable) (rule id : Nat) (pair : IndexPair) :
    (t.insert rule pair).pair? id = if id = rule then some pair else t.pair? id := by
  unfold insert pair?
  dsimp only
  rw [List.getElem?_set, List.length_append, List.length_replicate]
  by_cases hid : id = rule
  · subst hid
    rw [if_pos rfl, if_pos rfl, if_pos (by omega)]
    rfl
  · rw [if_neg (Ne.symm hid), if_neg hid, List.getElem?_append]
    by_cases hlt : id < t.pairs.length
    · rw [if_pos hlt]
    · rw [if_neg hlt, List.getElem?_eq_none (l := t.pairs) (by omega), List.getElem?_replicate]
      split <;> rfl

/-- Every rule lies in the drawer of the first index of its pair. -/
def Filed (t : IndexTable) : Prop := ∀ id p, t.pair? id = some p → id ∈ t.drawer p.first

theorem filed_empty : Filed {} := fun id p h => by simp [pair?] at h

theorem filed_insert {t : IndexTable} (h : t.Filed) (rule : Nat) (pair : IndexPair) :
    (t.insert rule pair).Filed := by
  intro id p hp
  rw [pair?_insert] at hp
  refine mem_file.mpr ?_
  by_cases hid : id = rule
  · rw [if_pos hid] at hp
    cases hp
    exact .inr ⟨rfl, hid⟩
  · rw [if_neg hid] at hp
    refine .inl ?_
    cases t.pair? rule with
    | none => exact h id p hp
    | some old => exact (mem_unfile hid).mpr (h id p hp)

/-! ### Candidates -/

theorem mem_addNew {a b : Nat} {l : List Nat} :
    b ∈ SortedList.addNew compare a l ↔ b = a ∨ b ∈ l := by
  refine ⟨SortedList.mem_of_mem_addNew, fun h => ?_⟩
  induction l with
  | nil => exact List.mem_singleton.mpr (h.resolve_right List.not_mem_nil)
  | cons c l ih =>
    rw [SortedList.addNew]
    cases hc : compare a c with
    | lt => exact List.mem_cons.mpr h
    | eq =>
      rw [Nat.compare_eq_eq] at hc
      subst hc
      exact h.elim (fun h => h ▸ List.mem_cons_self) id
    | gt =>
      rcases h with h | h
      · exact List.mem_cons_of_mem c (ih (.inl h))
      · rcases List.mem_cons.mp h with rfl | h
        · exact List.mem_cons_self
        · exact List.mem_cons_of_mem c (ih (.inr h))

theorem mem_foldr_addNew {b : Nat} {l : List Nat} :
    b ∈ l.foldr (SortedList.addNew compare) [] ↔ b ∈ l := by
  induction l with
  | nil => rfl
  | cons a l ih => rw [List.foldr_cons, mem_addNew, ih, List.mem_cons]

/-- A table of filed rules finds those whose pair is compatible with that of the subject. -/
theorem mem_candidates {t : IndexTable} (h : t.Filed) {subject : IndexPair} {id : Nat} :
    id ∈ t.candidates subject ↔ ∃ p, t.pair? id = some p ∧ p.compatible subject := by
  unfold candidates
  rw [mem_foldr_addNew, List.mem_filter, Option.any_eq_true]
  refine ⟨fun ⟨_, p, hp, hc⟩ => ⟨p, hp, hc⟩, fun ⟨p, hp, hc⟩ => ⟨?_, p, hp, hc⟩⟩
  have hdrawer := h id p hp
  split
  · obtain ⟨d, hd, hid⟩ : ∃ d ∈ t.drawers, id ∈ d.2 := by
      unfold drawer SortedList.get? at hdrawer
      cases hf : t.drawers.find? (·.1 == p.first) with
      | none => simp [hf] at hdrawer
      | some d => exact ⟨d, List.mem_of_find?_eq_some hf, by simpa [hf] using hdrawer⟩
    exact List.mem_flatMap.mpr ⟨d, hd, hid⟩
  · rename_i hne
    rcases Index.compatible_iff.mp (IndexPair.compatible_iff.mp hc).1 with hfirst | hfirst | hfirst
    · exact List.mem_append_right _ (hfirst ▸ hdrawer)
    · exact absurd hfirst hne
    · exact List.mem_append_left _ (hfirst ▸ hdrawer)

end IndexTable

/-! ### The table of a definition -/

namespace Definition

theorem mem_regularRules {rules : List Rule} {id : Nat} {r : Rule} :
    (id, r) ∈ Automaton.regularRules rules ↔ rules[id]? = some r ∧ r.kind = .regular := by
  unfold Automaton.regularRules
  rw [List.mem_filter, List.mem_mapIdx, List.getElem?_eq_some_iff]
  refine and_congr ⟨fun ⟨i, hi, he⟩ => ?_, fun ⟨hi, he⟩ => ⟨id, hi, by rw [he]⟩⟩ ?_
  · cases he
    exact ⟨hi, rfl⟩
  · exact beq_iff_eq

/-- Regular rules recorded one after the other, each with its pair. -/
theorem filed_foldl (settings : IndexSettings) (rs : List (Nat × Rule)) :
    ∀ {t : IndexTable}, t.Filed →
      (rs.foldl (fun t r => t.insert r.1 (r.2.pair settings)) t).Filed := by
  induction rs with
  | nil => exact fun h => h
  | cons r rs ih => exact fun h => ih (IndexTable.filed_insert h _ _)

theorem pair?_foldl (settings : IndexSettings) (rs : List (Nat × Rule)) {id : Nat} {r : Rule}
    (hmem : (id, r) ∈ rs) (honly : ∀ r', (id, r') ∈ rs → r' = r) :
    ∀ t : IndexTable, (rs.foldl (fun t r => t.insert r.1 (r.2.pair settings)) t).pair? id =
      some (r.pair settings) := by
  -- from the right: the last insertion for `id` decides
  induction rs using List.reverseRecOn with
  | nil => cases hmem
  | append_singleton rs last ih =>
    intro t
    rw [List.foldl_append, List.foldl_cons, List.foldl_nil, IndexTable.pair?_insert]
    by_cases hid : id = last.1
    · rw [if_pos hid, honly last.2 (by rw [hid]; simp)]
    · rw [if_neg hid]
      refine ih ?_ (fun r' h => honly r' (List.mem_append_left _ h)) t
      rcases List.mem_append.mp hmem with h | h
      · exact h
      · rw [List.mem_singleton] at h
        exact absurd (congrArg Prod.fst h) hid

/-- A regular rule is a candidate for the subjects that its pair is compatible with. -/
theorem mem_candidates {d : Definition} (hd : d.withTable = d) {subject : Term} {id : Nat}
    {r : Rule} (hr : d.rule? id = some r) (hk : r.kind = .regular)
    (hc : (r.pair d.indexing).compatible (d.indexing.pair subject)) :
    id ∈ d.candidates subject := by
  rw [candidates, ← hd]
  refine (IndexTable.mem_candidates (filed_foldl _ _ IndexTable.filed_empty)).mpr ⟨_, ?_, hc⟩
  refine pair?_foldl _ _ (mem_regularRules.mpr ⟨hr, hk⟩) (fun r' h => ?_) {}
  have h' := (mem_regularRules.mp h).1.symm.trans hr
  exact Option.some.inj h'

end Definition

end RuleCompiler

/-! ## What insertions leave in the index table

After any insertions the table answers as a scan of all of them would: a rule has the pair that was
inserted for it last, the candidates are the rules with compatible pairs in ascending order, and the size
is the number of different rules. -/

namespace RuleCompiler.IndexTable

/-! ### Order -/

theorem pairwise_foldr_addNew (l : List Nat) :
    (l.foldr (SortedList.addNew compare) []).Pairwise fun a b => compare a b = .lt := by
  induction l with
  | nil => exact .nil
  | cons a l ih => exact SortedList.pairwise_addNew a ih

/-- The candidates ascend, so none of them is listed twice. -/
theorem ascending_candidates (t : IndexTable) (subject : IndexPair) :
    (t.candidates subject).Pairwise (· < ·) :=
  (pairwise_foldr_addNew _).imp Nat.compare_eq_lt.mp

/-! ### Size -/

theorem size_eq_countP (t : IndexTable) : t.size = t.pairs.countP Option.isSome :=
  List.countP_eq_length_filter.symm

/-- A rule is counted once, with its first pair. -/
theorem size_insert (t : IndexTable) (rule : Nat) (pair : IndexPair) :
    (t.insert rule pair).size = if (t.pair? rule).isSome then t.size else t.size + 1 := by
  -- the list is made long enough by entries that hold no pair and are not counted
  obtain ⟨pairs, hpairs⟩ : ∃ pairs, t.pairs ++ List.replicate (rule + 1 - t.pairs.length) none = pairs :=
    ⟨_, rfl⟩
  have hlong : rule < pairs.length := by
    rw [← hpairs, List.length_append, List.length_replicate]
    omega
  have hpair : t.pair? rule = pairs[rule] := by
    simp only [pair?, ← hpairs, List.getElem_append]
    split
    · rename_i h
      rw [List.getElem?_eq_getElem h]
      rfl
    · rename_i h
      rw [List.getElem?_eq_none (Nat.le_of_not_lt h), List.getElem_replicate]
      rfl
  have hsize : t.size = pairs.countP Option.isSome := by
    rw [size_eq_countP, ← hpairs, List.countP_append, List.countP_replicate]
    rfl
  rw [hpair, hsize, size_eq_countP, insert, hpairs, List.countP_set hlong]
  cases h : pairs[rule] with
  | none => rfl
  | some old =>
    have hpos : 0 < pairs.countP Option.isSome :=
      List.countP_pos_iff.mpr ⟨some old, h ▸ List.getElem_mem hlong, rfl⟩
    exact Nat.sub_add_cancel hpos

/-! ### Runs of insertions -/

/-- The table after the insertions, made from the first to the last. -/
def ofInsertions (insertions : List (Nat × IndexPair)) : IndexTable :=
  insertions.foldl (fun t e => t.insert e.1 e.2) {}

/-- The pair of the last insertion for a rule. -/
def latest? (insertions : List (Nat × IndexPair)) (rule : Nat) : Option IndexPair :=
  insertions.reverse.lookup rule

theorem ofInsertions_concat (insertions : List (Nat × IndexPair)) (e : Nat × IndexPair) :
    ofInsertions (insertions ++ [e]) = (ofInsertions insertions).insert e.1 e.2 := by
  rw [ofInsertions, List.foldl_append]
  rfl

theorem latest?_concat (insertions : List (Nat × IndexPair)) (e : Nat × IndexPair) (rule : Nat) :
    latest? (insertions ++ [e]) rule = if rule = e.1 then some e.2 else latest? insertions rule := by
  obtain ⟨id, pair⟩ := e
  rw [latest?, List.reverse_append, List.reverse_singleton, List.singleton_append, List.lookup_cons]
  by_cases h : rule = id
  · rw [if_pos h, beq_iff_eq.mpr h]
  · rw [if_neg h, beq_eq_false_iff_ne.mpr h, latest?]

theorem pair?_ofInsertions (insertions : List (Nat × IndexPair)) (rule : Nat) :
    (ofInsertions insertions).pair? rule = latest? insertions rule := by
  induction insertions using List.reverseRecOn with
  | nil => rfl
  | append_singleton insertions e ih => rw [ofInsertions_concat, pair?_insert, latest?_concat, ih]

theorem filed_ofInsertions (insertions : List (Nat × IndexPair)) : (ofInsertions insertions).Filed := by
  induction insertions using List.reverseRecOn with
  | nil => exact filed_empty
  | append_singleton insertions e ih =>
    rw [ofInsertions_concat]
    exact filed_insert ih e.1 e.2

theorem isSome_latest?_iff {insertions : List (Nat × IndexPair)} {rule : Nat} :
    (latest? insertions rule).isSome ↔ rule ∈ insertions.map (·.1) := by
  induction insertions using List.reverseRecOn with
  | nil => simp [latest?]
  | append_singleton insertions e ih =>
    rw [latest?_concat]
    by_cases h : rule = e.1 <;> simp [h, ih]

theorem size_ofInsertions (insertions : List (Nat × IndexPair)) :
    (ofInsertions insertions).size = (insertions.map (·.1)).toFinset.card := by
  induction insertions using List.reverseRecOn with
  | nil => rfl
  | append_singleton insertions e ih =>
    have hrules : ((insertions ++ [e]).map (·.1)).toFinset =
        Insert.insert e.1 (insertions.map (·.1)).toFinset := by
      ext rule
      simp
    rw [ofInsertions_concat, size_insert, pair?_ofInsertions, ih, hrules]
    by_cases h : e.1 ∈ insertions.map (·.1)
    · rw [if_pos (isSome_latest?_iff.mpr h), Finset.card_insert_of_mem (List.mem_toFinset.mpr h)]
    · rw [if_neg (mt isSome_latest?_iff.mp h),
        Finset.card_insert_of_notMem (mt List.mem_toFinset.mp h)]

/-- After any insertions, in any order and with any replacements: the candidates for a subject are, in
strictly ascending order, just the rules whose latest pair is compatible with that of the subject; the
pair of a rule is its latest one; and as many rules are counted as there are different ones. -/
theorem answers_ofInsertions (insertions : List (Nat × IndexPair)) :
    (∀ subject, ((ofInsertions insertions).candidates subject).Pairwise (· < ·) ∧
      ∀ rule, rule ∈ (ofInsertions insertions).candidates subject ↔
        ∃ pair, latest? insertions rule = some pair ∧ pair.compatible subject) ∧
    (∀ rule, (ofInsertions insertions).pair? rule = latest? insertions rule) ∧
    (ofInsertions insertions).size = (insertions.map (·.1)).toFinset.card := by
  refine ⟨fun subject => ⟨ascending_candidates _ subject, fun rule => ?_⟩,
    pair?_ofInsertions insertions, size_ofInsertions insertions⟩
  rw [mem_candidates (filed_ofInsertions insertions), pair?_ofInsertions]

end RuleCompiler.IndexTable
