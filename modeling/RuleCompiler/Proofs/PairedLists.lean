import Mathlib.Data.List.Forall2

/-! # Lists paired entry by entry -/

namespace RuleCompiler.PairedLists

variable {α β : Type} {R S : α → β → Prop} {as : List α} {bs : List β}

theorem of_zip (hl : as.length = bs.length) (h : ∀ e ∈ as.zip bs, R e.1 e.2) :
    List.Forall₂ R as bs :=
  List.forall₂_iff_zip.mpr ⟨hl, fun hm => h _ hm⟩

theorem isEmpty_eq (h : List.Forall₂ R as bs) : as.isEmpty = bs.isEmpty := by cases h <;> rfl

theorem isEmpty_of_length (h : as.length = bs.length) : as.isEmpty = bs.isEmpty := by
  rw [Bool.eq_iff_iff, List.isEmpty_iff_length_eq_zero, List.isEmpty_iff_length_eq_zero, h]

/-- Entries with the same image are paired. -/
theorem of_map_eq {R : α → α → Prop} {f : α → β} (hR : ∀ a b, f a = f b → R a b) :
    ∀ {as bs : List α}, as.map f = bs.map f → List.Forall₂ R as bs
  | [], [], _ => .nil
  | a :: as, b :: bs, h => by
    rw [List.map_cons, List.map_cons, List.cons.injEq] at h
    exact .cons (hR a b h.1) (of_map_eq hR h.2)
  | [], _ :: _, h => by simp at h
  | _ :: _, [], h => by simp at h

theorem imp_mem (h : List.Forall₂ R as bs) (hRS : ∀ a ∈ as, ∀ b ∈ bs, R a b → S a b) :
    List.Forall₂ S as bs := by
  induction h with
  | nil => exact .nil
  | cons hab _ ih =>
    refine .cons (hRS _ List.mem_cons_self _ List.mem_cons_self hab) (ih fun a ha b hb => ?_)
    exact hRS a (List.mem_cons_of_mem _ ha) b (List.mem_cons_of_mem _ hb)

theorem and (h : List.Forall₂ R as bs) (h' : List.Forall₂ S as bs) :
    List.Forall₂ (fun a b => R a b ∧ S a b) as bs :=
  List.forall₂_iff_zip.mpr ⟨h.length_eq, fun hm =>
    ⟨(List.forall₂_iff_zip.mp h).2 hm, (List.forall₂_iff_zip.mp h').2 hm⟩⟩

theorem comp {γ : Type} {Q : β → γ → Prop} {T : α → γ → Prop} (hT : ∀ a b c, R a b → Q b c → T a c)
    (h : List.Forall₂ R as bs) : ∀ {cs : List γ}, List.Forall₂ Q bs cs → List.Forall₂ T as cs := by
  induction h with
  | nil =>
    rintro _ ⟨⟩
    exact .nil
  | cons hab _ ih =>
    rintro _ (_ | ⟨hbc, h⟩)
    exact .cons (hT _ _ _ hab hbc) (ih h)

theorem of_append {as cs : List α} {bs ds : List β} (hlen : as.length = bs.length)
    (h : List.Forall₂ R (as ++ cs) (bs ++ ds)) : List.Forall₂ R as bs ∧ List.Forall₂ R cs ds := by
  have htake := List.forall₂_take as.length h
  have hdrop := List.forall₂_drop as.length h
  rw [List.take_left, List.take_left' hlen.symm] at htake
  rw [List.drop_left, List.drop_left' hlen.symm] at hdrop
  exact ⟨htake, hdrop⟩

theorem exists_append {cs : List β} (h : List.Forall₂ R as (bs ++ cs)) :
    ∃ as' as'', as = as' ++ as'' ∧ List.Forall₂ R as' bs ∧ List.Forall₂ R as'' cs :=
  ⟨_, _, (List.take_append_drop bs.length as).symm, List.forall₂_take_append as bs cs h,
    List.forall₂_drop_append as bs cs h⟩

/-- What is paired with keys and values are keys and values. -/
theorem exists_entries {R : α → α → Prop} : ∀ {es : List (α × α)} {as : List α},
    List.Forall₂ R (es.flatMap fun e => [e.1, e.2]) as →
      ∃ es' : List (α × α), as = es'.flatMap (fun e => [e.1, e.2]) ∧
        List.Forall₂ (fun e e' => R e.1 e'.1 ∧ R e.2 e'.2) es es'
  | [], _, .nil => ⟨[], rfl, .nil⟩
  | _ :: _, _, .cons hk (.cons hv h) => by
    obtain ⟨es', rfl, hes⟩ := exists_entries h
    exact ⟨(_, _) :: es', rfl, .cons ⟨hk, hv⟩ hes⟩

theorem exists_getElem? (h : List.Forall₂ R as bs) {i : Nat} {a : α} (ha : as[i]? = some a) :
    ∃ b, bs[i]? = some b ∧ R a b := by
  obtain ⟨hi, rfl⟩ := List.getElem?_eq_some_iff.mp ha
  have hi' : i < bs.length := h.length_eq ▸ hi
  exact ⟨bs[i], List.getElem?_eq_getElem hi', h.get hi hi'⟩

theorem exists_mem (h : List.Forall₂ R as bs) {a : α} (ha : a ∈ as) : ∃ b ∈ bs, R a b := by
  obtain ⟨i, hi⟩ := List.getElem?_of_mem ha
  obtain ⟨b, hb, hab⟩ := exists_getElem? h hi
  exact ⟨b, List.mem_of_getElem? hb, hab⟩

theorem map_eq_map {γ : Type} {f : α → γ} {g : β → γ} (h : List.Forall₂ (fun a b => f a = g b) as bs) :
    as.map f = bs.map g := by
  induction h with
  | nil => rfl
  | cons hab _ ih => rw [List.map_cons, List.map_cons, hab, ih]

theorem map_eq {f : α → β} {as bs : List α} (h : List.Forall₂ (fun a b => f a = f b) as bs) :
    as.map f = bs.map f := map_eq_map h

theorem takeWhile {R : α → α → Prop} {p : α → Bool} (hp : ∀ a b, R a b → p a = p b)
    {as bs : List α} (h : List.Forall₂ R as bs) :
    List.Forall₂ R (as.takeWhile p) (bs.takeWhile p) := by
  induction h with
  | nil => exact .nil
  | @cons a b _ _ hab _ ih =>
    rw [List.takeWhile_cons, List.takeWhile_cons, ← hp a b hab]
    cases p a with
    | true => exact .cons hab ih
    | false => exact .nil

theorem any_eq {p : α → Bool} {q : β → Bool} (h : List.Forall₂ (fun a b => p a = q b) as bs) : as.any p = bs.any q := by
  induction h with
  | nil => rfl
  | cons hab _ ih => rw [List.any_cons, List.any_cons, hab, ih]

theorem all_eq {p : α → Bool} {q : β → Bool} (h : List.Forall₂ (fun a b => p a = q b) as bs) : as.all p = bs.all q := by
  induction h with
  | nil => rfl
  | cons hab _ ih => rw [List.all_cons, List.all_cons, hab, ih]

theorem beq_congr [BEq α] [BEq β] (hR : ∀ a b a' b', R a b → R a' b' → (a == a') = (b == b')) (h : List.Forall₂ R as bs)
    {as' : List α} {bs' : List β} (h' : List.Forall₂ R as' bs') : (as == as') = (bs == bs') := by
  induction h generalizing as' bs' with
  | nil => cases h' <;> rfl
  | cons hab _ ih =>
    cases h' with
    | nil => rfl
    | cons hab' h' => rw [List.cons_beq_cons, List.cons_beq_cons, hR _ _ _ _ hab hab', ih h']

theorem find? {p : α → Bool} {q : β → Bool} (hpq : ∀ a b, R a b → p a = q b) (h : List.Forall₂ R as bs) :
    Option.Rel R (as.find? p) (bs.find? q) := by
  induction h with
  | nil => exact .none
  | cons hab _ ih =>
    rw [List.find?_cons, List.find?_cons, hpq _ _ hab]
    split
    · exact .some hab
    · exact ih

theorem findIdx?_congr {p : α → Bool} {as bs : List α}
    (h : List.Forall₂ (fun a b => p a = p b) as bs) : as.findIdx? p = bs.findIdx? p := by
  induction h with
  | nil => rfl
  | cons hab _ ih => rw [List.findIdx?_cons, List.findIdx?_cons, hab, ih]

/-- Where only one position has the property, what implies it is at the same position. -/
theorem findIdx?_eq {p : α → Bool} {q : β → Bool} (h : List.Forall₂ (fun a b => p a → q b) as bs)
    (hbs : (bs.filter q).length ≤ 1) {i : Nat} (hi : as.findIdx? p = some i) :
    bs.findIdx? q = some i := by
  induction h generalizing i with
  | nil => cases hi
  | @cons a b as bs hab htail ih =>
    rw [List.findIdx?_cons] at hi ⊢
    split at hi
    · rename_i ha
      rw [if_pos (hab ha)]
      exact hi
    · obtain ⟨j, hj, rfl⟩ := Option.map_eq_some_iff.mp hi
      have hlen := ((List.sublist_cons_self b bs).filter q).length_le
      have hj := ih (Nat.le_trans hlen hbs) hj
      obtain ⟨x, hx, hqx⟩ := List.any_eq_true.mp (List.findIdx?_isSome ▸ hj ▸ rfl : bs.any q)
      have hb : q b = false := by
        by_contra hb
        rw [List.filter_cons_of_pos (by simpa using hb), List.length_cons] at hbs
        have := List.length_pos_of_mem (List.mem_filter.mpr ⟨hx, hqx⟩)
        omega
      rw [if_neg (by simp [hb]), hj]
      rfl

end RuleCompiler.PairedLists
