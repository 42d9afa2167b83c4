import Mathlib.Data.Nat.Basic
import RuleCompiler.Proofs.PairedLists
import RuleCompiler.Proofs.Returns

/-! # Stages

A stage says what is known of the nodes made so far, and which number the next one has. A computation
leads from one stage to another if some later stage fits what it did: then the value that it gives may be
told about in terms of that stage, and with it all the terms that were known before. -/

namespace RuleCompiler

/-- What may be known when the next node has a certain number. Later stages know more. -/
class Stage (ι : Type) extends Preorder ι where
  /-- The number of the next node. -/
  next : ι → Nat

/-- Nothing but the number of the next node is known. -/
instance : Stage Nat := { (inferInstance : Preorder Nat) with next := id }

namespace Build

variable {ι α β γ : Type} [Stage ι]

/-- From the stage `i` the computation comes to a later one, also if it ends with a clash, and a value
that it gives satisfies `p` there. -/
def Leads (i : ι) (p : ι → α → Prop) (x : Build α) : Prop :=
  ∃ j, i ≤ j ∧ Stage.next j = (x (Stage.next i)).2 ∧ ∀ a, (x (Stage.next i)).1 = .ok a → p j a

namespace Leads
variable {i j : ι} {p q : ι → α → Prop} {r : ι → β → Prop} {x : Build α}

theorem mono (hx : Leads i p x) (hpq : ∀ j a, i ≤ j → p j a → q j a) : Leads i q x := by
  obtain ⟨j, hj, hnext, hp⟩ := hx
  exact ⟨j, hj, hnext, fun a ha => hpq j a hj (hp a ha)⟩

theorem pure {a : α} (h : p i a) : Leads i p (Pure.pure a) := by
  refine ⟨i, le_refl i, rfl, fun b hb => ?_⟩
  cases hb
  exact h

theorem throw (c : Clash) : Leads i p (MonadExcept.throw c : Build α) :=
  ⟨i, le_refl i, rfl, fun _ h => by cases h⟩

/-- A value is known with the run that gives it. -/
theorem with_run (hx : Leads i p x) :
    Leads i (fun j a => p j a ∧ x (Stage.next i) = (.ok a, Stage.next j)) x := by
  obtain ⟨j, hj, hnext, hp⟩ := hx
  exact ⟨j, hj, hnext, fun a ha => ⟨hp a ha, Prod.ext ha hnext.symm⟩⟩

/-- What is known of the values however nodes are numbered is known of them at the stage too. -/
theorem and_returns {q : α → Prop} (hx : Leads i p x) (hq : Returns q x) :
    Leads i (fun j a => p j a ∧ q a) x := by
  obtain ⟨j, hj, hnext, hp⟩ := hx
  exact ⟨j, hj, hnext, fun a ha => ⟨hp a ha, hq a ⟨_, _, Prod.ext ha rfl⟩⟩⟩

/-- The value and the stage that a run gives. -/
theorem of_run (hx : Leads i p x) {a : α} {n : Nat} (hrun : x (Stage.next i) = (.ok a, n)) :
    ∃ j, i ≤ j ∧ Stage.next j = n ∧ p j a := by
  obtain ⟨j, hj, hnext, hp⟩ := hx
  rw [hrun] at hnext hp
  exact ⟨j, hj, hnext, hp a rfl⟩

theorem bind {f : α → Build β} (hx : Leads i p x) (hf : ∀ j a, i ≤ j → p j a → Leads j r (f a)) :
    Leads i r (x >>= f) := by
  obtain ⟨j, hj, hnext, hp⟩ := hx
  unfold Leads
  rw [bind_run]
  generalize x (Stage.next i) = o at hnext hp
  obtain ⟨c | a, n⟩ := o
  · exact ⟨j, hj, hnext, fun _ h => by cases h⟩
  · obtain ⟨k, hk, hnext', hr⟩ := hf j a hj (hp a rfl)
    rw [hnext] at hnext' hr
    exact ⟨k, le_trans hj hk, hnext', hr⟩

theorem ite {c : Prop} [Decidable c] {y : Build α} (hx : c → Leads i p x) (hy : ¬c → Leads i p y) :
    Leads i p (if c then x else y) := by
  by_cases h : c
  · rw [if_pos h]; exact hx h
  · rw [if_neg h]; exact hy h

theorem tryCatch {recover : Clash → Build α} (hx : Leads i p x)
    (hr : ∀ j c, i ≤ j → Leads j p (recover c)) : Leads i p (MonadExcept.tryCatch x recover) := by
  obtain ⟨j, hj, hnext, hp⟩ := hx
  unfold Leads
  rw [tryCatch_apply]
  generalize x (Stage.next i) = o at hnext hp
  obtain ⟨c | a, n⟩ := o
  · obtain ⟨k, hk, hnext', hr⟩ := hr j c hj
    rw [hnext] at hnext' hr
    exact ⟨k, le_trans hj hk, hnext', hr⟩
  · exact ⟨j, hj, hnext, hp⟩

/-! ### Loops -/

/-- Every value of a loop over a list belongs to its element. -/
theorem mapM {r : ι → α → β → Prop} (hr : ∀ {i j a b}, i ≤ j → r i a b → r j a b) {f : α → Build β} :
    ∀ {l : List α} {i : ι}, (∀ a ∈ l, ∀ j, i ≤ j → Leads j (fun j => r j a) (f a)) →
      Leads i (fun j => List.Forall₂ (r j) l) (l.mapM f)
  | [], i, _ => by
    rw [List.mapM_nil]
    exact pure .nil
  | a :: l, i, h => by
    rw [List.mapM_cons]
    refine (h a List.mem_cons_self i (le_refl i)).bind fun j b hj hb => ?_
    have hrest : Leads j (fun k => List.Forall₂ (r k) l) (l.mapM f) :=
      mapM (r := r) hr fun c hc k hk => h c (List.mem_cons_of_mem a hc) k (le_trans hj hk)
    exact hrest.bind fun k bs hk hbs => pure (.cons (hr hk hb) hbs)

/-- Every value of a loop over a list satisfies what each step ensures. -/
theorem mapM_all (hr : ∀ {i j b}, i ≤ j → r i b → r j b) {f : α → Build β} {l : List α}
    (h : ∀ a ∈ l, ∀ j, i ≤ j → Leads j r (f a)) : Leads i (fun j bs => ∀ b ∈ bs, r j b) (l.mapM f) := by
  refine (mapM (r := fun j _ => r j) hr h).mono fun j bs _ hbs b hb => ?_
  obtain ⟨_, _, hb⟩ := PairedLists.exists_mem hbs.flip hb
  exact hb

/-- An invariant of every step is one of the loop. -/
theorem foldlM {f : β → α → Build β} :
    ∀ {l : List α} {i : ι} {b : β}, r i b →
      (∀ j b, i ≤ j → r j b → ∀ a ∈ l, Leads j r (f b a)) → Leads i r (l.foldlM f b)
  | [], i, b, hb, _ => by
    rw [List.foldlM_nil]
    exact pure hb
  | a :: l, i, b, hb, h => by
    rw [List.foldlM_cons]
    refine (h i b (le_refl i) hb a List.mem_cons_self).bind fun j c hj hc => ?_
    exact foldlM hc fun k d hk hd e he => h k d (le_trans hj hk) hd e (List.mem_cons_of_mem a he)

/-! ### Numbers -/

theorem from_next {n : Nat} {p : Nat → α → Prop} (hx : Leads n p x) : From n p x := by
  intro a k hrun
  obtain ⟨m, hm, rfl, hp⟩ := hx.of_run hrun
  exact ⟨hm, hp⟩

end Leads

end Build

end RuleCompiler
