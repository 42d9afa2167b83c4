import Mathlib.Data.List.Sort
import RuleCompiler.Proofs.Index.Table
import RuleCompiler.Proofs.Matching.Determinacy
import RuleCompiler.Term.Disjunction

/-! # The tables of a disjunction

A disjunction files its branches by the labels and the tokens that their patterns begin with. What the
tables list for a subject are the branches whose heads admit it, in the order of the branches; of branches
with equal tokens it is the last one. -/

namespace RuleCompiler

namespace Term

variable {bs : List Branch} {b c : Branch} {p s t : Term} {i j : Nat} {l : String}

/-! ### Heads -/

theorem isToken_eq_false (h : p.constLabel? = some l) : p.isToken = false := by
  unfold isToken
  split
  · rename_i hn
    rw [constLabel?, hn] at h
    cases h
  · rfl

theorem headAdmits_of_label (h : p.constLabel? = some l) :
    p.headAdmits s = match s.node with
      | .app label .. => match label with
        | .const l' => l == l'
        | .freezer _ => false
      | .token .. => false
      | _ => true := by
  unfold constLabel? Node.constLabel? at h
  split at h
  · cases h
    cases hs : s.node with
    | app label => cases label <;> simp [headAdmits, *]
    | _ => simp [headAdmits, *]
  · cases h

theorem headAdmits_of_token (h : p.isToken) :
    p.headAdmits s = match s.node with
      | .token .. => p == s
      | .app .. => false
      | _ => true := by
  unfold isToken at h
  split at h
  · cases hs : s.node <;> simp [headAdmits, *]
  · cases h

theorem headAdmits_of_other (h : p.constLabel? = none) (ht : p.isToken = false) : p.headAdmits s := by
  unfold headAdmits
  unfold isToken at ht
  unfold constLabel? Node.constLabel? at h
  cases hn : p.node with
  | app label => cases label <;> simp [hn] at h ⊢
  | token => simp [hn] at ht
  | _ => simp

namespace BranchTables

variable {x : BranchTables}

theorem file_of_label (h : p.constLabel? = some l) :
    x.file p i = { x with byLabel := SortedList.put compare l (x.labelled l ++ [i]) x.byLabel } := by
  unfold constLabel? Node.constLabel? at h
  split at h
  · cases h
    unfold file
    rw [‹p.node = _›]
  · cases h

theorem file_of_token (h : p.isToken) :
    x.file p i = { x with byToken := SortedList.put Term.cmp p i x.byToken } := by
  unfold isToken at h
  split at h
  · unfold file
    rw [‹p.node = _›]
  · cases h

theorem file_of_other (h : p.constLabel? = none) (ht : p.isToken = false) :
    x.file p i = { x with others := x.others ++ [i] } := by
  unfold file
  unfold isToken at ht
  unfold constLabel? Node.constLabel? at h
  cases hn : p.node with
  | app label => cases label <;> simp [hn] at h ⊢
  | token => simp [hn] at ht
  | _ => simp

/-! ### What is filed -/

theorem ofBranches_concat (bs : List Branch) (b : Branch) :
    ofBranches (bs ++ [b]) = (ofBranches bs).file b.1 bs.length := by
  rw [ofBranches, List.zipIdx_append, List.foldl_append]
  simp [ofBranches]

theorem getElem?_concat_eq_some :
    (bs ++ [b])[i]? = some c ↔ bs[i]? = some c ∨ i = bs.length ∧ c = b := by
  rcases Nat.lt_trichotomy i bs.length with h | rfl | h
  · rw [List.getElem?_append_left h]
    simp [Nat.ne_of_lt h]
  · simp [eq_comm]
  · rw [List.getElem?_eq_none (by simpa using Nat.succ_le_of_lt h), List.getElem?_eq_none (Nat.le_of_lt h)]
    simp [Nat.ne_of_gt h]

theorem exists_concat {q : Branch → Prop} :
    (∃ c, (bs ++ [b])[i]? = some c ∧ q c) ↔ (∃ c, bs[i]? = some c ∧ q c) ∨ i = bs.length ∧ q b := by
  simp only [getElem?_concat_eq_some, or_and_right, exists_or, and_assoc, exists_and_left, exists_eq_left]

theorem forall_concat {q : Branch → Prop} :
    (∀ j c, i < j → (bs ++ [b])[j]? = some c → q c) ↔
      (∀ j c, i < j → bs[j]? = some c → q c) ∧ (i < bs.length → q b) := by
  simp only [getElem?_concat_eq_some, or_imp, forall_and, and_imp]
  exact and_congr_right fun _ => ⟨fun h hi => h _ _ hi rfl rfl, fun h j c hj hlen hc => hc ▸ h (hlen ▸ hj)⟩

/-- The last branch whose pattern is the token stands at position `i`. -/
def LastToken (bs : List Branch) (t : Term) (i : Nat) : Prop :=
  t.isToken ∧ (∃ b, bs[i]? = some b ∧ b.1 == t) ∧ ∀ j c, i < j → bs[j]? = some c → (c.1 == t) = false

theorem LastToken.lt (h : LastToken bs t i) : i < bs.length := by
  obtain ⟨-, ⟨b, hb, -⟩, -⟩ := h
  exact (List.getElem?_eq_some_iff.mp hb).1

theorem lastToken_concat :
    LastToken (bs ++ [b]) t i ↔ if b.1.isToken && b.1 == t then i = bs.length else LastToken bs t i := by
  unfold LastToken
  rw [exists_concat, forall_concat]
  split
  · rename_i h
    rw [Bool.and_eq_true] at h
    obtain ⟨hb, hbt⟩ := h
    constructor
    · rintro ⟨-, ⟨c, hc, -⟩ | ⟨hi, -⟩, -, hlast⟩
      · rw [hlast (List.getElem?_eq_some_iff.mp hc).1] at hbt
        cases hbt
      · exact hi
    · rintro rfl
      refine ⟨Matching.isToken_congr hbt ▸ hb, .inr ⟨rfl, hbt⟩, fun j c hj hc => ?_, fun h => absurd h (Nat.lt_irrefl _)⟩
      exact absurd (List.getElem?_eq_some_iff.mp hc).1 (Nat.not_lt_of_gt hj)
  · rename_i h
    refine and_congr_right fun ht => ?_
    have hbt : (b.1 == t) = false := by
      by_contra hbt
      rw [Bool.not_eq_false] at hbt
      rw [Matching.isToken_congr hbt, ht, hbt] at h
      exact h rfl
    simp [hbt]

/-- What the tables hold of the branches. -/
structure Files (x : BranchTables) (bs : List Branch) : Prop where
  labels : x.byLabel.Pairwise fun d e => compare d.1 e.1 = .lt
  tokens : x.byToken.Pairwise fun d e => d.1.cmp e.1 = .lt
  mem_labelled (l : String) (i : Nat) :
    i ∈ x.labelled l ↔ ∃ b, bs[i]? = some b ∧ b.1.constLabel? = some l
  token (t : Term) (i : Nat) : SortedList.get? t x.byToken = some i ↔ LastToken bs t i
  mem_others (i : Nat) :
    i ∈ x.others ↔ ∃ b, bs[i]? = some b ∧ b.1.constLabel? = none ∧ b.1.isToken = false

theorem labelled_put (x : BranchTables) (l k : String) (i j : Nat) :
    j ∈ { x with byLabel := SortedList.put compare l (x.labelled l ++ [i]) x.byLabel }.labelled k ↔
      j ∈ x.labelled k ∨ j = i ∧ l = k := by
  unfold labelled
  rw [SortedList.get?_put (by simp)]
  by_cases h : l = k
  · simp [h]
  · simp [h]

/-- One more branch filed. -/
theorem Files.file (h : Files x bs) (b : Branch) : Files (x.file b.1 bs.length) (bs ++ [b]) := by
  cases hl : b.1.constLabel? with
  | some l =>
    have ht : b.1.isToken = false := isToken_eq_false hl
    rw [file_of_label hl]
    refine ⟨SortedList.pairwise_put l _ h.labels, h.tokens, fun k i => ?_, fun t i => ?_, fun i => ?_⟩
    · rw [labelled_put, h.mem_labelled, exists_concat, hl, Option.some.injEq]
    · rw [h.token, lastToken_concat, ht]
      rfl
    · rw [h.mem_others, exists_concat, hl]
      simp
  | none =>
    cases ht : b.1.isToken with
    | true =>
      rw [file_of_token ht]
      refine ⟨h.labels, SortedList.pairwise_put b.1 _ h.tokens, fun k i => ?_, fun t i => ?_, fun i => ?_⟩
      · refine (h.mem_labelled k i).trans ?_
        rw [exists_concat, hl]
        simp
      · rw [SortedList.get?_put cmp_eq_iff, lastToken_concat, ht, Bool.true_and, apply_ite (· = some i), h.token]
        simp only [Option.some.injEq, eq_comm]
      · rw [h.mem_others, exists_concat, ht]
        simp
    | false =>
      rw [file_of_other hl ht]
      refine ⟨h.labels, h.tokens, fun k i => ?_, fun t i => ?_, fun i => ?_⟩
      · refine (h.mem_labelled k i).trans ?_
        rw [exists_concat, hl]
        simp
      · rw [h.token, lastToken_concat, ht]
        rfl
      · rw [List.mem_append, List.mem_singleton, h.mem_others, exists_concat, hl, ht]
        simp

theorem files_ofBranches (bs : List Branch) : Files (ofBranches bs) bs := by
  induction bs using List.reverseRecOn with
  | nil => exact ⟨.nil, .nil, by simp [ofBranches, labelled, SortedList.get?],
      by simp [ofBranches, SortedList.get?, LastToken], by simp [ofBranches]⟩
  | append_singleton bs b ih => exact ofBranches_concat bs b ▸ ih.file b

theorem Files.mem_byLabel (h : Files x bs) {i : Nat} :
    i ∈ x.byLabel.flatMap (·.2) ↔ ∃ l, i ∈ x.labelled l := by
  have hvalues (is : List Nat) := SortedList.mem_values (v := is) (by simp) h.labels
  constructor
  · intro hi
    obtain ⟨d, hd, hi⟩ := List.mem_flatMap.mp hi
    obtain ⟨l, hl⟩ := (hvalues d.2).mp (List.mem_map_of_mem hd)
    exact ⟨l, by rw [labelled, hl]; exact hi⟩
  · rintro ⟨l, hi⟩
    rw [labelled] at hi
    cases hl : SortedList.get? l x.byLabel with
    | none =>
      rw [hl] at hi
      cases hi
    | some is =>
      rw [hl] at hi
      obtain ⟨d, hd, rfl⟩ := List.mem_map.mp ((hvalues is).mpr ⟨l, hl⟩)
      exact List.mem_flatMap.mpr ⟨d, hd, hi⟩

theorem Files.mem_byToken (h : Files x bs) {i : Nat} :
    i ∈ x.byToken.map (·.2) ↔ ∃ t, LastToken bs t i := by
  rw [SortedList.mem_values cmp_eq_iff h.tokens]
  exact exists_congr fun t => h.token t i

/-! ### What is listed -/

/-- The branch at position `i` counts for the subject: its head admits it, and it is not the token of a
later branch. -/
def Counts (bs : List Branch) (s : Term) (i : Nat) : Prop :=
  ∃ b, bs[i]? = some b ∧ b.1.headAdmits s ∧ (b.1.isToken → LastToken bs b.1 i)

theorem lastToken_iff (hb : bs[i]? = some b) : LastToken bs t i ↔ b.1 == t ∧ LastToken bs b.1 i := by
  unfold LastToken
  constructor
  · rintro ⟨ht, ⟨c, hc, hct⟩, hlast⟩
    rw [hb] at hc
    cases hc
    rw [Matching.isToken_congr hct]
    exact ⟨hct, ht, ⟨b, hb, BEq.rfl⟩, fun j c hj hc => by rw [BEq.congr_right hct, hlast j c hj hc]⟩
  · rintro ⟨hbt, ht, -, hlast⟩
    rw [← Matching.isToken_congr hbt]
    exact ⟨ht, ⟨b, hb, hbt⟩, fun j c hj hc => by rw [← BEq.congr_right hbt, hlast j c hj hc]⟩

theorem Files.not_mem_positions (h : Files x bs) (s : Term) (hb : bs[i]? = none) : i ∉ x.positions s := by
  have hlabelled (l : String) : i ∉ x.labelled l := by simp [h.mem_labelled, hb]
  have htoken (t : Term) : ¬LastToken bs t i := fun h =>
    Nat.not_lt_of_le (List.getElem?_eq_none_iff.mp hb) h.lt
  have hget (t : Term) : SortedList.get? t x.byToken ≠ some i := fun ht => htoken t ((h.token t i).mp ht)
  have hall : i ∉ x.byLabel.flatMap (·.2) ++ x.byToken.map (·.2) := by
    rw [List.mem_append, h.mem_byLabel, h.mem_byToken]
    simp [hlabelled, htoken]
  unfold positions
  rw [IndexTable.mem_foldr_addNew, List.mem_append, h.mem_others, hb]
  simp only [reduceCtorEq, false_and, exists_false, or_false]
  cases hs : s.node with
  | app label => cases label <;> simp [hlabelled]
  | token => simpa using hget s
  | _ => exact hall

/-- A branch is listed where its head admits the subject; of equal tokens, only the last. -/
theorem Files.mem_positions_of_getElem? (h : Files x bs) (s : Term) (hb : bs[i]? = some b) :
    i ∈ x.positions s ↔ b.1.headAdmits s ∧ (b.1.isToken → LastToken bs b.1 i) := by
  have hlabelled (l : String) : i ∈ x.labelled l ↔ b.1.constLabel? = some l := by simp [h.mem_labelled, hb]
  have htoken (t : Term) : SortedList.get? t x.byToken = some i ↔ b.1 == t ∧ LastToken bs b.1 i :=
    (h.token t i).trans (lastToken_iff hb)
  have hall : i ∈ x.byLabel.flatMap (·.2) ++ x.byToken.map (·.2) ↔
      b.1.constLabel?.isSome ∨ LastToken bs b.1 i := by
    rw [List.mem_append, h.mem_byLabel, h.mem_byToken, Option.isSome_iff_exists]
    exact or_congr (exists_congr hlabelled) ⟨fun ⟨t, h⟩ => ((lastToken_iff hb).mp h).2, fun h => ⟨b.1, h⟩⟩
  unfold positions
  rw [IndexTable.mem_foldr_addNew, List.mem_append, h.mem_others]
  cases hl : b.1.constLabel? with
  | some l =>
    have ht : b.1.isToken = false := isToken_eq_false hl
    have hnot : ¬LastToken bs b.1 i := fun h => Bool.false_ne_true (ht.symm.trans h.1)
    rw [headAdmits_of_label hl, ht]
    rw [hl] at hall
    simp only [hnot, and_false] at htoken hall
    cases hs : s.node with
    | app label => cases label <;> simp [hlabelled, hl, hb]
    | token => simp [htoken, hl, hb]
    | _ => simpa [hl, hb] using hall
  | none =>
    rw [hl] at hall
    cases ht : b.1.isToken with
    | true =>
      rw [headAdmits_of_token ht]
      cases hs : s.node with
      | app label => cases label <;> simp [hlabelled, hl, ht, hb]
      | token => simp [htoken, hl, ht, hb]
      | _ => simpa [hl, ht, hb] using hall
    | false =>
      rw [headAdmits_of_other hl ht]
      simp [hl, ht, hb]

theorem mem_positions (h : Files x bs) (s : Term) (i : Nat) : i ∈ x.positions s ↔ Counts bs s i := by
  unfold Counts
  cases hb : bs[i]? with
  | none => simpa using h.not_mem_positions s hb
  | some b => simpa using h.mem_positions_of_getElem? s hb

theorem lastToken_zero : LastToken (b :: bs) b.1 0 ↔ b.1.isToken ∧ ¬bs.any (·.1 == b.1) := by
  unfold LastToken
  refine and_congr_right fun _ => ?_
  rw [Bool.not_eq_true, List.any_eq_false]
  constructor
  · rintro ⟨-, hlast⟩ c hc
    obtain ⟨j, hj⟩ := List.getElem?_of_mem hc
    simpa using hlast (j + 1) c (Nat.succ_pos j) hj
  · intro hlast
    refine ⟨⟨b, rfl, BEq.rfl⟩, fun j c hj hc => ?_⟩
    obtain ⟨j, rfl⟩ := Nat.exists_eq_add_of_le' hj
    simpa using hlast c (List.mem_of_getElem? hc)

theorem lastToken_succ : LastToken (b :: bs) t (i + 1) ↔ LastToken bs t i := by
  unfold LastToken
  rw [List.getElem?_cons_succ]
  refine and_congr_right fun _ => and_congr_right fun _ => ⟨fun h j c hj hc => ?_, fun h j c hj hc => ?_⟩
  · exact h (j + 1) c (Nat.succ_lt_succ hj) hc
  · obtain ⟨j, rfl⟩ := Nat.exists_eq_succ_of_ne_zero (Nat.ne_zero_of_lt hj)
    exact h j c (Nat.lt_of_succ_lt_succ hj) hc

theorem counts_zero : Counts (b :: bs) s 0 ↔ b.1.headAdmits s && !(b.1.isToken && bs.any (·.1 == b.1)) := by
  have hhead : Counts (b :: bs) s 0 ↔ b.1.headAdmits s ∧ (b.1.isToken → LastToken (b :: bs) b.1 0) := by
    constructor
    · rintro ⟨c, hc, h⟩
      cases hc
      exact h
    · exact fun h => ⟨b, rfl, h⟩
  rw [hhead, lastToken_zero]
  cases b.1.isToken <;> simp

theorem counts_succ : Counts (b :: bs) s (i + 1) ↔ Counts bs s i := by
  unfold Counts
  simp only [List.getElem?_cons_succ, lastToken_succ]

open Classical in
theorem candidateBranches_eq (s : Term) (bs : List Branch) :
    candidateBranches s bs = ((List.range bs.length).filter fun i => Counts bs s i).filterMap (bs[·]?) := by
  induction bs with
  | nil => rfl
  | cons b bs ih =>
    have hrest : (((List.range bs.length).map Nat.succ).filter fun i => Counts (b :: bs) s i).filterMap
        ((b :: bs)[·]?) = candidateBranches s bs := by
      rw [List.filter_map, List.filterMap_map, ih]
      simp only [Function.comp_def, counts_succ, Nat.succ_eq_add_one, List.getElem?_cons_succ]
    rw [candidateBranches, List.length_cons, List.range_succ_eq_map, List.filter_cons]
    simp only [decide_eq_true_eq, counts_zero]
    split
    · rw [List.filterMap_cons, hrest]
      rfl
    · exact hrest.symm

end BranchTables

/-- What the tables list for a subject are the candidates. -/
theorem listedBranches_eq (s : Term) (bs : List Branch) : listedBranches s bs = candidateBranches s bs := by
  classical
  have hascends : ((BranchTables.ofBranches bs).positions s).Pairwise (· < ·) :=
    (IndexTable.pairwise_foldr_addNew _).imp Nat.compare_eq_lt.mp
  have hsame : (BranchTables.ofBranches bs).positions s = (List.range bs.length).filter fun i => BranchTables.Counts bs s i := by
    refine hascends.eq_of_mem_iff (List.pairwise_lt_range.filter _) fun i => ?_
    rw [BranchTables.mem_positions (BranchTables.files_ofBranches bs), List.mem_filter, List.mem_range, decide_eq_true_eq]
    exact ⟨fun h => ⟨(List.getElem?_eq_some_iff.mp h.choose_spec.1).1, h⟩, fun h => h.2⟩
  rw [BranchTables.candidateBranches_eq, listedBranches, hsame]

end Term

end RuleCompiler
