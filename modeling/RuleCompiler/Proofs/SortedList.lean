import Mathlib.Data.List.Basic
import RuleCompiler.SortedList

/-! # Sorted lists

Sorting rearranges a list and puts it in order, and none of the insertions invents an element. -/

namespace RuleCompiler.SortedList

variable {α β : Type} {cmp : α → α → Ordering}

/-! ### One step -/

theorem insert_cons (a b : α) (l : List α) :
    insert cmp a (b :: l) = if cmp b a = .lt then b :: insert cmp a l else a :: b :: l := rfl

theorem addNew_nil (a : α) : addNew cmp a [] = [a] := rfl

theorem addNew_cons (a b : α) (l : List α) : addNew cmp a (b :: l) = match cmp a b with
    | .lt => a :: b :: l
    | .eq => b :: l
    | .gt => b :: addNew cmp a l := rfl

theorem put_nil (key : α) (value : β) : put cmp key value [] = [(key, value)] := rfl

theorem put_cons (key : α) (value : β) (e : α × β) (l : List (α × β)) :
    put cmp key value (e :: l) = match cmp key e.1 with
      | .lt => (key, value) :: e :: l
      | .eq => (e.1, value) :: l
      | .gt => e :: put cmp key value l := rfl

/-! ### Elements -/

theorem perm_insert (a : α) (l : List α) : (insert cmp a l).Perm (a :: l) := by
  induction l with
  | nil => rfl
  | cons b l ih =>
    rw [insert_cons]
    by_cases h : cmp b a = .lt
    · rw [if_pos h]
      exact (ih.cons b).trans (.swap a b l)
    · rw [if_neg h]

theorem perm_sort (l : List α) : (sort cmp l).Perm l := by
  induction l with
  | nil => rfl
  | cons a l ih => exact (perm_insert a (sort cmp l)).trans (ih.cons a)

@[simp] theorem mem_sort {a : α} {l : List α} : a ∈ sort cmp l ↔ a ∈ l := (perm_sort l).mem_iff

theorem mem_of_mem_addNew {a b : α} {l : List α} (h : b ∈ addNew cmp a l) : b = a ∨ b ∈ l := by
  induction l with
  | nil => exact .inl (List.mem_singleton.mp h)
  | cons c l ih =>
    rw [addNew_cons] at h
    cases hc : cmp a c with
    | lt =>
      rw [hc] at h
      exact List.mem_cons.mp h
    | eq =>
      rw [hc] at h
      exact .inr h
    | gt =>
      rw [hc] at h
      rcases List.mem_cons.mp h with rfl | h
      · exact .inr List.mem_cons_self
      · exact (ih h).imp_right (List.mem_cons_of_mem c)

/-- An entry after `put` has a key from before or the one that is put, and a value likewise. -/
theorem mem_of_mem_put {key : α} {value : β} {e : α × β} {l : List (α × β)}
    (h : e ∈ put cmp key value l) :
    (e.1 = key ∨ ∃ f ∈ l, f.1 = e.1) ∧ (e.2 = value ∨ ∃ f ∈ l, f.2 = e.2) := by
  induction l with
  | nil =>
    rw [put_nil, List.mem_singleton] at h
    subst h
    exact ⟨.inl rfl, .inl rfl⟩
  | cons f l ih =>
    have stays : ∀ g ∈ f :: l, (g.1 = key ∨ ∃ f' ∈ f :: l, f'.1 = g.1) ∧
        (g.2 = value ∨ ∃ f' ∈ f :: l, f'.2 = g.2) :=
      fun g hg => ⟨.inr ⟨g, hg, rfl⟩, .inr ⟨g, hg, rfl⟩⟩
    rw [put_cons] at h
    cases hc : cmp key f.1 with
    | lt =>
      rw [hc] at h
      rcases List.mem_cons.mp h with rfl | h
      · exact ⟨.inl rfl, .inl rfl⟩
      · exact stays e h
    | eq =>
      rw [hc] at h
      rcases List.mem_cons.mp h with rfl | h
      · exact ⟨.inr ⟨f, List.mem_cons_self, rfl⟩, .inl rfl⟩
      · exact stays e (List.mem_cons_of_mem f h)
    | gt =>
      rw [hc] at h
      rcases List.mem_cons.mp h with rfl | h
      · exact stays e List.mem_cons_self
      · obtain ⟨hk, hv⟩ := ih h
        exact ⟨hk.imp_right fun ⟨g, hg, he⟩ => ⟨g, List.mem_cons_of_mem f hg, he⟩,
          hv.imp_right fun ⟨g, hg, he⟩ => ⟨g, List.mem_cons_of_mem f hg, he⟩⟩

theorem perm_addNew {a : α} {l : List α} (h : ∀ b ∈ l, cmp a b ≠ .eq) :
    (addNew cmp a l).Perm (a :: l) := by
  induction l with
  | nil => rfl
  | cons b l ih =>
    obtain ⟨hb, hl⟩ := List.forall_mem_cons.mp h
    rw [addNew_cons]
    cases hc : cmp a b with
    | lt => rfl
    | eq => exact absurd hc hb
    | gt => exact ((ih hl).cons b).trans (.swap a b l)

/-- An element of which there is an equal one leaves no trace. -/
theorem mem_map_addNew {γ : Type} {f : α → γ}
    (hf : ∀ a b, cmp a b = .eq → f a = f b) {a : α} {l : List α} {c : γ} :
    c ∈ (addNew cmp a l).map f ↔ c = f a ∨ c ∈ l.map f := by
  induction l with
  | nil => simp [addNew_nil]
  | cons b l ih =>
    rw [addNew_cons]
    cases hc : cmp a b with
    | lt => simp
    | eq => simp [hf a b hc]
    | gt =>
      dsimp only
      rw [List.map_cons, List.mem_cons, ih, List.map_cons, List.mem_cons, or_left_comm]

theorem perm_put {key : α} {value : β} {l : List (α × β)} (h : ∀ e ∈ l, cmp key e.1 ≠ .eq) :
    (put cmp key value l).Perm ((key, value) :: l) := by
  induction l with
  | nil => rfl
  | cons e l ih =>
    obtain ⟨he, hl⟩ := List.forall_mem_cons.mp h
    rw [put_cons]
    cases hc : cmp key e.1 with
    | lt => rfl
    | eq => exact absurd hc he
    | gt => exact ((ih hl).cons e).trans (.swap (key, value) e l)

/-- Elements inserted one after the other are all there, as long as none of them is turned away. -/
theorem perm_foldl {f : List α → α → List α} {R : α → α → Prop} (symm : ∀ {a b}, R a b → R b a)
    (hf : ∀ l a, (∀ b ∈ l, R b a) → (f l a).Perm (a :: l)) {as l : List α}
    (h : (l ++ as).Pairwise R) : (as.foldl f l).Perm (l ++ as) := by
  induction as generalizing l with
  | nil => rw [List.append_nil]; rfl
  | cons a as ih =>
    have ha := hf l a fun b hb => (List.pairwise_append.mp h).2.2 b hb a List.mem_cons_self
    have hmove : (f l a ++ as).Perm (l ++ a :: as) :=
      (ha.append_right as).trans List.perm_middle.symm
    exact (ih ((hmove.pairwise_iff symm).mpr h)).trans hmove

/-- Taking out an element by its key, where no other has this key. -/
theorem perm_cons_filter {κ : Type} [BEq κ] [EquivBEq κ] {f : α → κ} {l : List α} {u : α}
    (hl : l.Pairwise fun a b => (f a == f b) = false) (hu : u ∈ l) :
    l.Perm (u :: l.filter fun a => !(f a == f u)) := by
  induction l with
  | nil => cases hu
  | cons a l ih =>
    obtain ⟨ha, hl⟩ := List.pairwise_cons.mp hl
    rcases List.mem_cons.mp hu with rfl | hu
    · have hkeep : l.filter (fun a => !(f a == f u)) = l := by
        refine List.filter_eq_self.mpr fun b hb => ?_
        rw [BEq.comm, ha b hb]
        rfl
      rw [List.filter_cons_of_neg (by simp), hkeep]
    · rw [List.filter_cons_of_pos (by simp [ha u hu])]
      exact ((ih hl hu).cons a).trans (.swap u a _)

theorem mem_of_mem_erase [BEq α] {key : α} {e : α × β} {l : List (α × β)}
    (h : e ∈ erase key l) : e ∈ l :=
  (List.mem_filter.mp h).1

theorem get?_cons_beq [BEq α] (key : α) (e : α × β) (l : List (α × β)) :
    get? key (e :: l) = if e.1 == key then some e.2 else get? key l := by
  unfold get?
  rw [List.find?_cons]
  cases h : e.1 == key <;> simp

theorem get?_cons [DecidableEq α] (key : α) (e : α × β) (l : List (α × β)) :
    get? key (e :: l) = if e.1 = key then some e.2 else get? key l := by
  simpa using get?_cons_beq key e l

theorem get?_congr [BEq α] [EquivBEq α] {k k' : α} (h : k == k') (l : List (α × β)) : get? k l = get? k' l := by
  unfold get?
  simp only [BEq.congr_right h]

/-- `put` sets the value of its key and of no other. -/
theorem get?_put [BEq α] [EquivBEq α] (heq : ∀ {a b}, cmp a b = .eq ↔ a == b) (key : α) (value : β)
    (k : α) (l : List (α × β)) :
    get? k (put cmp key value l) = if key == k then some value else get? k l := by
  induction l with
  | nil => rw [put_nil, get?_cons_beq]
  | cons e l ih =>
    rw [put_cons]
    cases hc : cmp key e.1 with
    | lt => rw [get?_cons_beq]
    | eq =>
      have hkey : key == e.1 := heq.mp hc
      dsimp only
      rw [get?_cons_beq, get?_cons_beq, BEq.congr_left hkey]
      cases e.1 == k <;> simp
    | gt =>
      have hkey : ¬key == e.1 := fun h => by simp [heq.mpr h] at hc
      dsimp only
      rw [get?_cons_beq, get?_cons_beq, ih]
      cases hk : e.1 == k with
      | true => rw [if_pos rfl, if_pos rfl, if_neg fun h => hkey (BEq.trans h (BEq.symm hk))]
      | false => simp

/-! ### Stability -/

theorem filter_insert {p : α → Bool} {a : α} {l : List α} (h : p a → ∀ b ∈ l, p b → cmp b a ≠ .lt) :
    (insert cmp a l).filter p = (a :: l).filter p := by
  induction l with
  | nil => rfl
  | cons b l ih =>
    rw [insert_cons]
    by_cases hlt : cmp b a = .lt
    · rw [if_pos hlt, List.filter_cons, ih fun ha c hc => h ha c (List.mem_cons_of_mem b hc)]
      by_cases ha : p a
      · have hb : ¬p b := fun hb => h ha b List.mem_cons_self hb hlt
        simp [ha, hb]
      · simp [ha, List.filter_cons]
    · rw [if_neg hlt]

/-- Sorting is stable: elements that are not told apart stay in the order they came in. -/
theorem filter_sort {p : α → Bool} {l : List α} (h : ∀ a ∈ l, p a → ∀ b ∈ l, p b → cmp b a ≠ .lt) :
    (sort cmp l).filter p = l.filter p := by
  induction l with
  | nil => rfl
  | cons a l ih =>
    have hins : p a → ∀ b ∈ sort cmp l, p b → cmp b a ≠ .lt := fun ha b hb =>
      h a List.mem_cons_self ha b (List.mem_cons_of_mem a (mem_sort.mp hb))
    have hrest : (sort cmp l).filter p = l.filter p :=
      ih fun b hb hpb c hc => h b (List.mem_cons_of_mem a hb) hpb c (List.mem_cons_of_mem a hc)
    rw [sort, List.foldr_cons, ← sort, filter_insert hins, List.filter_cons, List.filter_cons, hrest]

/-! ### Order -/

section Order
variable {R : α → α → Prop}

theorem pairwise_insert (trans : ∀ {a b c}, R a b → R b c → R a c)
    (below : ∀ {a b}, cmp b a = .lt → R b a) (above : ∀ {a b}, cmp b a ≠ .lt → R a b) (a : α)
    {l : List α} (h : l.Pairwise R) : (insert cmp a l).Pairwise R := by
  induction l with
  | nil => exact List.pairwise_singleton R a
  | cons b l ih =>
    obtain ⟨hb, hl⟩ := List.pairwise_cons.mp h
    rw [insert_cons]
    by_cases hc : cmp b a = .lt
    · rw [if_pos hc, List.pairwise_cons]
      refine ⟨fun c hm => ?_, ih hl⟩
      rcases List.mem_cons.mp ((perm_insert a l).mem_iff.mp hm) with rfl | hm
      · exact below hc
      · exact hb c hm
    · rw [if_neg hc, List.pairwise_cons]
      refine ⟨fun c hm => ?_, h⟩
      rcases List.mem_cons.mp hm with rfl | hm
      · exact above hc
      · exact trans (above hc) (hb c hm)

/-- A sorted list is in every order that the comparison decides. -/
theorem pairwise_sort (trans : ∀ {a b c}, R a b → R b c → R a c)
    (below : ∀ {a b}, cmp b a = .lt → R b a) (above : ∀ {a b}, cmp b a ≠ .lt → R a b)
    (l : List α) : (sort cmp l).Pairwise R := by
  induction l with
  | nil => exact .nil
  | cons a l ih => exact pairwise_insert (R := R) trans below above a ih

theorem insert_eq_cons {a : α} {l : List α} (h : ∀ b ∈ l, cmp b a ≠ .lt) :
    insert cmp a l = a :: l := by
  cases l with
  | nil => rfl
  | cons b l => rw [insert_cons, if_neg (h b List.mem_cons_self)]

/-- A sorted list stays as it is. -/
theorem sort_eq_self {l : List α} (h : l.Pairwise fun a b => cmp b a ≠ .lt) : sort cmp l = l := by
  induction l with
  | nil => rfl
  | cons a l ih =>
    obtain ⟨ha, hl⟩ := List.pairwise_cons.mp h
    rw [sort, List.foldr_cons, ← sort, ih hl, insert_eq_cons ha]

/-- Where different elements are unrelated, related ones are one. -/
theorem eq_of_pairwise {R : α → α → Prop} {l : List α} (h : l.Pairwise fun a b => ¬R a b ∧ ¬R b a)
    {a b : α} (ha : a ∈ l) (hb : b ∈ l) (hab : R a b) : a = b :=
  List.Pairwise.forall_of_forall_of_flip (R := fun a b => R a b → a = b) (fun _ _ _ => rfl)
    (h.imp fun h hab => (h.1 hab).elim) (h.imp fun h hba => (h.2 hba).elim) ha hb hab

/-- Rearrangements of one list that are both in an order without ties have the same images. -/
theorem map_eq_of_perm {γ : Type} {r : γ → γ → Prop} (antisymm : ∀ {a b}, r a b → r b a → a = b)
    {f : α → γ} {as bs : List α} (h : (as.map f).Perm (bs.map f))
    (ha : as.Pairwise fun a b => r (f a) (f b)) (hb : bs.Pairwise fun a b => r (f a) (f b)) :
    as.map f = bs.map f :=
  h.eq_of_pairwise (fun _ _ _ _ => antisymm) (List.pairwise_map.mpr ha) (List.pairwise_map.mpr hb)

end Order

/-! ### Comparisons -/

section Strict
variable [Std.TransCmp cmp]

theorem isLE_of_not_lt {a b : α} (h : cmp b a ≠ .lt) : (cmp a b).isLE := by
  have hswap : cmp a b = (cmp b a).swap := Std.OrientedCmp.eq_swap
  rw [hswap]
  cases hc : cmp b a with
  | lt => exact absurd hc h
  | _ => rfl

/-- Sorting puts a list in the order of its comparison. -/
theorem sorted_sort (l : List α) : (sort cmp l).Pairwise fun a b => (cmp a b).isLE :=
  pairwise_sort (R := fun a b => (cmp a b).isLE) Std.TransCmp.isLE_trans
    (fun h => by rw [h]; rfl) isLE_of_not_lt l

/-- Adding to a list in strict order keeps it in strict order. -/
theorem pairwise_addNew (a : α) {l : List α} (h : l.Pairwise fun a b => cmp a b = .lt) :
    (addNew cmp a l).Pairwise fun a b => cmp a b = .lt := by
  induction l with
  | nil => exact List.pairwise_singleton _ a
  | cons b l ih =>
    obtain ⟨hb, hl⟩ := List.pairwise_cons.mp h
    rw [addNew_cons]
    cases hc : cmp a b with
    | lt =>
      refine List.pairwise_cons.mpr ⟨List.forall_mem_cons.mpr ⟨hc, fun c hm => ?_⟩, h⟩
      exact Std.TransCmp.lt_trans hc (hb c hm)
    | eq => exact h
    | gt =>
      refine List.pairwise_cons.mpr ⟨fun c hm => ?_, ih hl⟩
      rcases mem_of_mem_addNew hm with rfl | hm
      · exact Std.OrientedCmp.lt_of_gt hc
      · exact hb c hm

/-- Setting a value keeps the keys in strict order. -/
theorem pairwise_put (key : α) (value : β) {l : List (α × β)}
    (h : l.Pairwise fun a b => cmp a.1 b.1 = .lt) :
    (put cmp key value l).Pairwise fun a b => cmp a.1 b.1 = .lt := by
  induction l with
  | nil => exact List.pairwise_singleton _ _
  | cons e l ih =>
    obtain ⟨he, hl⟩ := List.pairwise_cons.mp h
    rw [put_cons]
    cases hc : cmp key e.1 with
    | lt =>
      refine List.pairwise_cons.mpr ⟨List.forall_mem_cons.mpr ⟨hc, fun c hm => ?_⟩, h⟩
      exact Std.TransCmp.lt_trans hc (he c hm)
    | eq => exact List.pairwise_cons.mpr ⟨he, hl⟩
    | gt =>
      refine List.pairwise_cons.mpr ⟨fun c hm => ?_, ih hl⟩
      rcases (mem_of_mem_put hm).1 with hkey | ⟨f, hf, hkey⟩
      · rw [hkey]
        exact Std.OrientedCmp.lt_of_gt hc
      · rw [← hkey]
        exact he f hf

/-- A list that is in the order of its comparison stays as it is. -/
theorem sort_of_sorted {l : List α} (h : l.Pairwise fun a b => (cmp a b).isLE) : sort cmp l = l := by
  refine sort_eq_self (h.imp fun hle hlt => ?_)
  rw [Std.OrientedCmp.gt_of_lt hlt] at hle
  cases hle

/-- A key that comes after all others is put at the end. -/
theorem put_eq_append {key : α} {value : β} {l : List (α × β)} (h : ∀ e ∈ l, cmp e.1 key = .lt) :
    put cmp key value l = l ++ [(key, value)] := by
  induction l with
  | nil => rfl
  | cons e l ih =>
    obtain ⟨he, hl⟩ := List.forall_mem_cons.mp h
    rw [put_cons, Std.OrientedCmp.gt_of_lt he]
    simp only
    rw [ih hl, List.cons_append]

/-- An element that comes after all others is added at the end. -/
theorem addNew_eq_append {a : α} {l : List α} (h : ∀ b ∈ l, cmp b a = .lt) :
    addNew cmp a l = l ++ [a] := by
  induction l with
  | nil => rfl
  | cons b l ih =>
    obtain ⟨hb, hl⟩ := List.forall_mem_cons.mp h
    rw [addNew_cons, Std.OrientedCmp.gt_of_lt hb]
    simp only
    rw [ih hl, List.cons_append]

/-- Setting a key that is there replaces its value. -/
theorem put_eq_map {key : α} {value : β} {l : List (α × β)}
    (h : l.Pairwise fun a b => cmp a.1 b.1 = .lt) (hkey : ∃ e ∈ l, cmp key e.1 = .eq) :
    put cmp key value l = l.map fun e => if cmp key e.1 = .eq then (e.1, value) else e := by
  induction l with
  | nil => simp at hkey
  | cons e l ih =>
    obtain ⟨he, hl⟩ := List.pairwise_cons.mp h
    rw [put_cons, List.map_cons]
    cases hc : cmp key e.1 with
    | lt =>
      have hbelow : ∀ f ∈ e :: l, cmp key f.1 = .lt :=
        List.forall_mem_cons.mpr ⟨hc, fun f hf => Std.TransCmp.lt_trans hc (he f hf)⟩
      obtain ⟨f, hf, heq⟩ := hkey
      rw [hbelow f hf] at heq
      cases heq
    | eq =>
      have hrest : l.map (fun f => if cmp key f.1 = .eq then (f.1, value) else f) = l := by
        refine (List.map_congr_left fun f hf => ?_).trans (List.map_id l)
        rw [Std.TransCmp.lt_of_eq_of_lt hc (he f hf)]
        rfl
      rw [hrest, if_pos rfl]
    | gt =>
      rw [List.exists_mem_cons_iff, hc] at hkey
      rw [ih hl (hkey.resolve_left (by simp)), if_neg (by simp)]

/-- Adding an element that is there changes nothing. -/
theorem addNew_eq_self {a : α} {l : List α} (h : l.Pairwise fun a b => cmp a b = .lt)
    (ha : ∃ b ∈ l, cmp a b = .eq) : addNew cmp a l = l := by
  induction l with
  | nil => simp at ha
  | cons b l ih =>
    obtain ⟨hb, hl⟩ := List.pairwise_cons.mp h
    rw [addNew_cons]
    cases hc : cmp a b with
    | lt =>
      have hbelow : ∀ c ∈ b :: l, cmp a c = .lt :=
        List.forall_mem_cons.mpr ⟨hc, fun c hm => Std.TransCmp.lt_trans hc (hb c hm)⟩
      obtain ⟨c, hm, heq⟩ := ha
      rw [hbelow c hm] at heq
      cases heq
    | eq => rfl
    | gt =>
      rw [List.exists_mem_cons_iff, hc] at ha
      dsimp only
      rw [ih hl (ha.resolve_left (by simp))]

end Strict

/-- The values of a sorted map are those that its keys have. -/
theorem mem_values [BEq α] [EquivBEq α] (heq : ∀ {a b}, cmp a b = .eq ↔ a == b) {l : List (α × β)}
    (h : l.Pairwise fun a b => cmp a.1 b.1 = .lt) {v : β} :
    v ∈ l.map (·.2) ↔ ∃ key, get? key l = some v := by
  induction l with
  | nil => simp [get?]
  | cons e l ih =>
    obtain ⟨he, hl⟩ := List.pairwise_cons.mp h
    rw [List.map_cons, List.mem_cons, ih hl]
    constructor
    · rintro (rfl | ⟨key, hkey⟩)
      · exact ⟨e.1, by rw [get?_cons_beq, BEq.rfl, if_pos rfl]⟩
      · refine ⟨key, ?_⟩
        obtain ⟨f, hf, hfkey, -⟩ : ∃ f ∈ l, f.1 == key ∧ f.2 = v := by
          obtain ⟨f, hfind, hv⟩ := Option.map_eq_some_iff.mp hkey
          exact ⟨f, List.mem_of_find?_eq_some hfind, by simpa using List.find?_some hfind, hv⟩
        have hne : ¬e.1 == key := fun hekey => by
          have := heq.mpr (BEq.trans hekey (BEq.symm hfkey))
          rw [he f hf] at this
          cases this
        rw [get?_cons_beq, if_neg hne, hkey]
    · rintro ⟨key, hkey⟩
      rw [get?_cons_beq] at hkey
      split at hkey
      · exact .inl (Option.some.inj hkey).symm
      · exact .inr ⟨key, hkey⟩

end RuleCompiler.SortedList
