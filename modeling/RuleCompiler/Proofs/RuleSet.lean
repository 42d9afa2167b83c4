import Mathlib.Data.Finset.Card
import Mathlib.Data.Finset.Dedup
import Mathlib.Data.Finset.Lattice.Basic
import Mathlib.Data.Finset.Insert
import RuleCompiler.RuleSet

/-! # Rule sets as sets of numbers

However a rule set is put together, it answers as the finite set of numbers put together in the
same way does, and two of them are equal exactly when these sets are. -/

namespace RuleCompiler

theorem Word.mem_ones {w : Word} {b : Nat} : b ∈ w.ones ↔ w.getLsbD b = true := by
  simp only [Word.ones, List.mem_filter, List.mem_range, and_iff_right_iff_imp]
  exact BitVec.lt_of_getLsbD

namespace RuleSet

variable {s t : RuleSet} {i : Nat}

/-! ### The ids of a set -/

theorem mem_toList : i ∈ s.toList ↔ s.contains i = true := by
  simp only [toList, List.mem_flatten, List.mem_mapIdx, contains, Word.nth]
  constructor
  · rintro ⟨_, ⟨j, hj, rfl⟩, hi⟩
    obtain ⟨b, hb, rfl⟩ := List.mem_map.mp hi
    have hlt : b < wordBits := BitVec.lt_of_getLsbD (Word.mem_ones.mp hb)
    rw [Nat.mul_add_div (by decide), Nat.mul_add_mod, Nat.div_eq_of_lt hlt, Nat.mod_eq_of_lt hlt,
      Nat.add_zero, List.getElem?_eq_getElem hj]
    exact Word.mem_ones.mp hb
  · intro h
    by_cases hj : i / wordBits < s.words.length
    · rw [List.getElem?_eq_getElem hj] at h
      exact ⟨_, ⟨_, hj, rfl⟩,
        List.mem_map.mpr ⟨i % wordBits, Word.mem_ones.mpr h, Nat.div_add_mod i wordBits⟩⟩
    · rw [List.getElem?_eq_none (by omega)] at h
      simp at h

/-- The ids of one word are below those of every later word. -/
theorem pairwise_toList (s : RuleSet) : s.toList.Pairwise (· < ·) := by
  rw [toList, List.pairwise_flatten]
  constructor
  · intro ids hids
    obtain ⟨j, hj, rfl⟩ := List.mem_mapIdx.mp hids
    have := (List.pairwise_lt_range (n := wordBits)).filter s.words[j].getLsbD
    exact List.Pairwise.map _ (fun a b h => Nat.add_lt_add_left h _) this
  · rw [List.pairwise_iff_getElem]
    intro j k hj hk hjk x hx y hy
    simp only [List.getElem_mapIdx, List.mem_map] at hx hy
    obtain ⟨a, ha, rfl⟩ := hx
    obtain ⟨b, -, rfl⟩ := hy
    have ha : a < 64 := BitVec.lt_of_getLsbD (Word.mem_ones.mp ha)
    simp only [wordBits]
    omega

theorem size_eq (s : RuleSet) : s.size = s.toList.length := by
  have hsum : s.size = (s.words.map fun w => w.ones.length).sum := by
    rw [size, List.sum_eq_foldr, List.foldr_map]
  rw [hsum, toList, List.length_flatten]
  congr 1
  refine List.ext_getElem? fun j => ?_
  simp only [List.getElem?_map, List.getElem?_mapIdx, Option.map_map]
  congr 1
  funext w
  simp

theorem isEmpty_iff : s.isEmpty = true ↔ ∀ i, s.contains i = false := by
  constructor
  · intro h i
    have hz : ∀ w ∈ s.words, w = 0#64 := by simpa [isEmpty] using h
    rw [contains, Word.nth]
    cases hw : s.words[i / wordBits]? with
    | none => simp
    | some w => simp [hz w (List.mem_of_getElem? hw)]
  · intro h
    rw [show s = empty from ext fun i => by simp [h]]
    rfl

@[simp] theorem contains_singleton (r i : Nat) : (singleton r).contains i = decide (r = i) := by
  simp [singleton]

@[simp] theorem contains_ofList (rs : List Nat) (i : Nat) :
    (ofList rs).contains i = decide (i ∈ rs) := by
  have add : ∀ s : RuleSet, (rs.foldl insert s).contains i = (s.contains i || decide (i ∈ rs)) := by
    induction rs with
    | nil => simp
    | cons r rs ih => intro s; simp [ih, Bool.or_assoc, eq_comm]
  rw [ofList, add, contains_empty, Bool.false_or]

end RuleSet

/-! ### Sets put together by operations -/

/-- How a rule set is put together: the operations on the way to it. -/
inductive SetExpression where
  | empty
  | singleton (rule : Nat)
  | ofList (rules : List Nat)
  | insert (e : SetExpression) (rule : Nat)
  | union (e f : SetExpression)
  | inter (e f : SetExpression)

namespace SetExpression

/-- The rule set that the operations give. -/
def value : SetExpression → RuleSet
  | empty => .empty
  | singleton rule => .singleton rule
  | ofList rules => .ofList rules
  | insert e rule => e.value.insert rule
  | union e f => e.value.union f.value
  | inter e f => e.value.inter f.value

/-- The numbers that should be in it. -/
def members : SetExpression → Finset Nat
  | empty => ∅
  | singleton rule => { rule }
  | ofList rules => rules.toFinset
  | insert e rule => Insert.insert rule e.members
  | union e f => e.members ∪ f.members
  | inter e f => e.members ∩ f.members

variable (e : SetExpression)

theorem contains_value (i : Nat) : e.value.contains i = true ↔ i ∈ e.members := by
  induction e with
  | empty => simp [value, members]
  | singleton rule => simp [value, members, eq_comm]
  | ofList rules => simp [value, members]
  | insert e rule ih => simp [value, members, ih, or_comm, eq_comm (a := i)]
  | union e f ihe ihf => simp [value, members, ihe, ihf]
  | inter e f ihe ihf => simp [value, members, ihe, ihf]

theorem toFinset_toList : e.value.toList.toFinset = e.members := by
  ext i
  rw [List.mem_toFinset, RuleSet.mem_toList, contains_value]

theorem value_eq_iff (f : SetExpression) : e.value = f.value ↔ e.members = f.members := by
  constructor
  · intro h
    rw [← toFinset_toList, h, toFinset_toList]
  · intro h
    refine RuleSet.ext fun i => Bool.eq_iff_iff.mpr ?_
    rw [contains_value, contains_value, h]

/-- **Rule sets are sets.** A rule set put together from any ids by any operations has the members
that the same operations on finite sets of numbers give; its ids come in strictly ascending order;
its size and its test for emptiness count them; and it is equal to another one exactly when both
have the same members. -/
theorem value_is_members :
    (∀ i, e.value.contains i = true ↔ i ∈ e.members) ∧
    (∀ i, i ∈ e.value.toList ↔ i ∈ e.members) ∧
    e.value.toList.Pairwise (· < ·) ∧
    e.value.size = e.members.card ∧
    (e.value.isEmpty = true ↔ e.members = ∅) ∧
    ∀ f : SetExpression, (e.value == f.value) = true ↔ e.members = f.members := by
  have hsorted := RuleSet.pairwise_toList e.value
  refine ⟨contains_value e, fun i => ?_, hsorted, ?_, ?_, fun f => ?_⟩
  · rw [RuleSet.mem_toList, contains_value]
  · have hnodup : e.value.toList.Nodup := hsorted.imp Nat.ne_of_lt
    rw [RuleSet.size_eq, ← toFinset_toList, List.toFinset_card_of_nodup hnodup]
  · rw [RuleSet.isEmpty_iff, Finset.eq_empty_iff_forall_notMem]
    exact forall_congr' fun i => by rw [← contains_value, Bool.not_eq_true]
  · rw [beq_iff_eq, value_eq_iff]

/-- Id 70 needs a second word, and meeting a set without it takes that word away again. -/
example : ((singleton 70).union (ofList [3, 5])).value.words.length = 2 ∧
    (((singleton 70).union (ofList [3, 5])).inter (ofList [5, 9])).value = .singleton 5 := by
  decide

end SetExpression

end RuleCompiler
