import Mathlib.Data.List.Forall2
import RuleCompiler.Session

/-! # What computations may give

Node numbers, sessions and budgets do not matter for what the results of a computation are made
of. `Returns p x` says that every value that `x` may give, from whatever state, satisfies `p`; a
computation that ends with a clash gives none. The rules follow the way computations are put
together: `pure`, `bind`, lifting, and the loops over lists. -/

namespace RuleCompiler

open MonadAttach (CanReturn)

universe u
variable {m : Type → Type u} {α β : Type}

/-- Every value that the computation may give satisfies `p`. -/
def Returns [MonadAttach m] (p : α → Prop) (x : m α) : Prop := ∀ a, CanReturn x a → p a

namespace Returns

/-! ### Computations -/

section Attach
variable [MonadAttach m]

theorem mono {p q : α → Prop} {x : m α} (h : Returns q x) (hqp : ∀ a, q a → p a) : Returns p x :=
  fun a ha => hqp a (h a ha)

theorem trivial (x : m α) : Returns (fun _ => True) x := fun _ _ => True.intro

/-- A value that a computation gives is one that it may give. -/
theorem self (x : m α) : Returns (CanReturn x) x := fun _ h => h

theorem and {p q : α → Prop} {x : m α} (hp : Returns p x) (hq : Returns q x) :
    Returns (fun a => p a ∧ q a) x :=
  fun a ha => ⟨hp a ha, hq a ha⟩

theorem ite {p : α → Prop} {c : Prop} [Decidable c] {x y : m α} (hx : c → Returns p x)
    (hy : ¬c → Returns p y) : Returns p (if c then x else y) := by
  by_cases h : c
  · rw [if_pos h]; exact hx h
  · rw [if_neg h]; exact hy h

end Attach

variable [Monad m] [LawfulMonad m] [MonadAttach m] [LawfulMonadAttach m]

theorem pure {p : α → Prop} {a : α} (h : p a) : Returns p (Pure.pure a : m α) := by
  intro b hb
  rw [← LawfulMonadAttach.eq_of_canReturn_pure hb]
  exact h

theorem bind {q : α → Prop} {p : β → Prop} {x : m α} {f : α → m β} (hx : Returns q x)
    (hf : ∀ a, q a → Returns p (f a)) : Returns p (x >>= f) := by
  intro b hb
  obtain ⟨a, ha, hb⟩ := LawfulMonadAttach.canReturn_bind_imp' hb
  exact hf a (hx a ha) b hb

/-- The first computation may give anything. -/
theorem bind' {p : β → Prop} {x : m α} {f : α → m β} (hf : ∀ a, Returns p (f a)) :
    Returns p (x >>= f) :=
  (trivial x).bind fun a _ => hf a

/-- What is done first on a condition makes no difference. -/
theorem ite_bind {p : β → Prop} {c : Prop} [Decidable c] {x : m Unit} {f : Unit → m β}
    (hf : Returns p (f ())) : Returns p (if c then x >>= f else f ()) :=
  .ite (fun _ => .bind' fun _ => hf) fun _ => hf

theorem map {p : β → Prop} {x : m α} {f : α → β} (hx : Returns (fun a => p (f a)) x) :
    Returns p (f <$> x) := by
  intro b hb
  obtain ⟨a, ha, rfl⟩ := LawfulMonadAttach.canReturn_map_imp' hb
  exact hx a ha

theorem lift {n : Type → Type} [Monad n] [LawfulMonad n] [MonadAttach n] [LawfulMonadAttach n]
    [MonadLiftT n m] [LawfulMonadLiftT n m] {p : α → Prop} {x : n α} (hx : Returns p x) :
    Returns p (liftM x : m α) :=
  fun a ha => hx a (LawfulMonadAttach.canReturn_liftM_imp' ha)

/-! ### Loops -/

/-- Every value of a loop over a list belongs to its element. -/
theorem mapM {q : α → β → Prop} {f : α → m β} :
    ∀ {l : List α}, (∀ a ∈ l, Returns (q a) (f a)) → Returns (List.Forall₂ q l) (l.mapM f)
  | [], _ => by
    rw [List.mapM_nil]
    exact pure .nil
  | a :: l, h => by
    rw [List.mapM_cons]
    refine (h a List.mem_cons_self).bind fun b hb => ?_
    refine (mapM fun c hc => h c (List.mem_cons_of_mem a hc)).bind fun bs hbs => ?_
    exact pure (.cons hb hbs)

/-- Every value of a loop over a list satisfies what each step ensures. -/
theorem mapM_all {p : β → Prop} {f : α → m β} :
    ∀ {l : List α}, (∀ a ∈ l, Returns p (f a)) → Returns (fun bs => ∀ b ∈ bs, p b) (l.mapM f)
  | [], _ => by
    rw [List.mapM_nil]
    exact pure (List.forall_mem_nil p)
  | a :: l, h => by
    rw [List.mapM_cons]
    refine (h a List.mem_cons_self).bind fun b hb => ?_
    refine (mapM_all fun c hc => h c (List.mem_cons_of_mem a hc)).bind fun bs hbs => ?_
    exact pure (List.forall_mem_cons.mpr ⟨hb, hbs⟩)

/-- An invariant of every step is one of the loop. -/
theorem foldlM {p : β → Prop} {f : β → α → m β} :
    ∀ {l : List α} {b : β}, p b → (∀ b, p b → ∀ a ∈ l, Returns p (f b a)) →
      Returns p (l.foldlM f b)
  | [], b, hb, _ => by
    rw [List.foldlM_nil]
    exact pure hb
  | a :: l, b, hb, h => by
    rw [List.foldlM_cons]
    refine (h b hb a List.mem_cons_self).bind fun c hc => ?_
    exact foldlM hc fun d hd e he => h d hd e (List.mem_cons_of_mem a he)

/-- What a joining loop gives comes from one of its steps. -/
theorem flatMapM {p : α → β → Prop} {f : α → m (List β)} :
    ∀ {l : List α}, (∀ a ∈ l, Returns (fun bs => ∀ b ∈ bs, p a b) (f a)) →
      Returns (fun bs => ∀ b ∈ bs, ∃ a ∈ l, p a b) (l.flatMapM f)
  | [], _ => by
    rw [List.flatMapM_nil]
    exact pure (List.forall_mem_nil _)
  | a :: l, h => by
    rw [List.flatMapM_cons]
    refine (h a List.mem_cons_self).bind fun bs hbs => ?_
    refine (flatMapM fun c hc => h c (List.mem_cons_of_mem a hc)).bind fun cs hcs => pure ?_
    intro b hb
    rcases List.mem_append.mp hb with hb | hb
    · exact ⟨a, List.mem_cons_self, hbs b hb⟩
    · obtain ⟨c, hc, hp⟩ := hcs b hb
      exact ⟨c, List.mem_cons_of_mem a hc, hp⟩

/-- Everything that a joining loop gives satisfies what each step ensures. -/
theorem flatMapM_all {p : β → Prop} {f : α → m (List β)} {l : List α}
    (h : ∀ a ∈ l, Returns (fun bs => ∀ b ∈ bs, p b) (f a)) :
    Returns (fun bs => ∀ b ∈ bs, p b) (l.flatMapM f) :=
  (flatMapM (p := fun _ => p) h).mono fun _ hbs b hb => (hbs b hb).elim fun _ h => h.2

/-- What the first successful step gives satisfies what each step ensures. -/
theorem findSomeM? {p : β → Prop} {f : α → m (Option β)} :
    ∀ {l : List α}, (∀ a ∈ l, Returns (fun o => ∀ b, o = some b → p b) (f a)) →
      Returns (fun o => ∀ b, o = some b → p b) (l.findSomeM? f)
  | [], _ => by
    rw [List.findSomeM?_nil]
    exact pure fun _ h => by cases h
  | a :: l, h => by
    rw [List.findSomeM?_cons]
    refine (h a List.mem_cons_self).bind fun o ho => ?_
    cases o with
    | some b => exact pure ho
    | none => exact findSomeM? fun c hc => h c (List.mem_cons_of_mem a hc)

/-- Everything that a selecting loop gives satisfies what each step ensures. -/
theorem filterMapM {p : β → Prop} {f : α → m (Option β)} :
    ∀ {l : List α}, (∀ a ∈ l, Returns (fun o => ∀ b, o = some b → p b) (f a)) →
      Returns (fun bs => ∀ b ∈ bs, p b) (l.filterMapM f)
  | [], _ => by
    rw [List.filterMapM_nil]
    exact pure (List.forall_mem_nil p)
  | a :: l, h => by
    rw [List.filterMapM_cons]
    refine (h a List.mem_cons_self).bind fun o ho => ?_
    have hrest := filterMapM (l := l) fun c hc => h c (List.mem_cons_of_mem a hc)
    cases o with
    | none => exact hrest
    | some b => exact hrest.bind fun bs hbs => pure (List.forall_mem_cons.mpr ⟨ho b rfl, hbs⟩)

/-! ### States and errors -/

omit [LawfulMonad m] [LawfulMonadAttach m] in
theorem run {σ : Type} {p : α → Prop} {x : StateT σ m α} (h : Returns p x) (s : σ) :
    Returns (fun r => p r.1) (x.run s) :=
  fun r hr => h r.1 ⟨s, r.2, hr⟩

omit [LawfulMonad m] [LawfulMonadAttach m] in
theorem run_ok {ε : Type} {p : α → Prop} {x : ExceptT ε m α} (h : Returns p x) :
    Returns (fun r => ∀ a, r = .ok a → p a) x.run := by
  rintro r hr a rfl
  exact h a hr

theorem throw {ε : Type} {p : α → Prop} (e : ε) :
    Returns p (MonadExcept.throw e : ExceptT ε m α) := by
  intro a ha
  have h : (Except.error e : Except ε α) = .ok a :=
    LawfulMonadAttach.eq_of_canReturn_pure (m := m) ha
  cases h

/-- A value that a computation gave satisfies what all its values do. -/
theorem of_eq {σ ε : Type} {p : α → Prop} {x : ExceptT ε (StateM σ) α} (h : Returns p x)
    {s s' : σ} {a : α} (ha : x s = (.ok a, s')) : p a := by
  refine h a ⟨s, s', ?_⟩
  show x s = (.ok a, s')
  exact ha

end Returns

/-! ### Runs -/

/-- What a computation gives when its nodes are numbered from `n`, if no clash ends it. -/
def Build.result? (x : Build α) (n : Nat) : Option α :=
  match (x n).1 with
  | .ok a => some a
  | .error _ => none

/-- The element of a list that has just one. -/
def single? : List α → Option α
  | [a] => some a
  | _ => none

theorem eq_of_single? {as : List α} {a : α} (h : single? as = some a) : as = [a] := by
  unfold single? at h
  split at h
  · cases h
    rfl
  · cases h

theorem eq_of_bind_single? {o : Option (List α)} {a : α} (h : o.bind single? = some a) : o = some [a] := by
  obtain ⟨as, rfl, has⟩ := Option.bind_eq_some_iff.mp h
  rw [eq_of_single? has]

/-- The run that gives the value. -/
theorem Build.exists_run {x : Build α} {n : Nat} {a : α} (ha : x.result? n = some a) : ∃ m, x n = (.ok a, m) := by
  unfold result? at ha
  split at ha
  · rename_i b hb
    cases ha
    exact ⟨_, Prod.ext hb rfl⟩
  · cases ha

theorem Returns.of_result? {p : α → Prop} {x : Build α} (h : Returns p x) {n : Nat} {a : α}
    (ha : x.result? n = some a) : p a := by
  obtain ⟨m, hrun⟩ := Build.exists_run ha
  exact h.of_eq hrun

namespace Build

theorem bind_eq {x : Build α} {f : α → Build β} {n n' : Nat} {a : α} (h : x n = (.ok a, n')) :
    (x >>= f) n = f a n' := by
  show StateT.bind x (ExceptT.bindCont f) n = _
  rw [StateT.bind, h]
  rfl

/-- A computation goes on from the value and the number that it was left with, unless there was a clash. -/
theorem bind_run (x : Build α) (f : α → Build β) (n : Nat) : (x >>= f) n =
    match x n with
    | (.ok a, m) => f a m
    | (.error c, m) => (.error c, m) := by
  show StateT.bind x (ExceptT.bindCont f) n = _
  rw [StateT.bind]
  rcases x n with ⟨_ | _, _⟩ <;> rfl

theorem tryCatch_apply (x : Build α) (recover : Clash → Build α) (n : Nat) :
    (MonadExcept.tryCatch x recover : Build α) n = match x n with
      | (.ok a, m) => (.ok a, m)
      | (.error c, m) => recover c m := by
  show ExceptT.tryCatch x recover n = _
  rw [ExceptT.tryCatch, ExceptT.mk]
  show StateT.bind x _ n = _
  rw [StateT.bind]
  rcases x n with ⟨_ | _, _⟩ <;> rfl

/-- What ends well needs no recovery. -/
theorem tryCatch_eq {x : Build α} {n n' : Nat} {a : α} (h : x n = (.ok a, n')) (recover : Clash → Build α) :
    tryCatch x recover n = (.ok a, n') := by
  show ExceptT.tryCatch x recover n = _
  rw [ExceptT.tryCatch, ExceptT.mk]
  show StateT.bind x _ n = _
  rw [StateT.bind, h]
  rfl

/-- The computation gives a value of which `Q` holds, however its nodes are numbered. -/
def Always (x : Build α) (Q : α → Prop) : Prop := ∀ n, ∃ a n', x n = (.ok a, n') ∧ Q a

namespace Always
variable {x : Build α} {P Q : α → Prop}

theorem mono (hx : Always x P) (hPQ : ∀ a, P a → Q a) : Always x Q := by
  intro n
  obtain ⟨a, n', hrun, hP⟩ := hx n
  exact ⟨a, n', hrun, hPQ a hP⟩

theorem pure {a : α} (h : Q a) : Always (Pure.pure a) Q := fun n => ⟨a, n, rfl, h⟩

theorem bind {R : β → Prop} {f : α → Build β} (hx : Always x P) (hf : ∀ a, P a → Always (f a) R) :
    Always (x >>= f) R := by
  intro n
  obtain ⟨a, n', hrun, hP⟩ := hx n
  obtain ⟨b, n'', hrun', hR⟩ := hf a hP n'
  exact ⟨b, n'', by rw [bind_eq hrun, hrun'], hR⟩

/-- Every value of a loop over a list belongs to its element. -/
theorem mapM {S : β → α → Prop} {f : β → Build α} :
    ∀ {l : List β}, (∀ b ∈ l, Always (f b) (S b)) → Always (l.mapM f) (List.Forall₂ S l)
  | [], _ => by
    rw [List.mapM_nil]
    exact pure .nil
  | b :: l, h => by
    rw [List.mapM_cons]
    refine (h b List.mem_cons_self).bind fun a ha => ?_
    refine (mapM fun c hc => h c (List.mem_cons_of_mem b hc)).bind fun as has => ?_
    exact pure (.cons ha has)

/-- A joining loop gives what its steps give, one after the other. -/
theorem flatMapM {S : β → List α → Prop} {f : β → Build (List α)} :
    ∀ {l : List β}, (∀ b ∈ l, Always (f b) (S b)) →
      Always (l.flatMapM f) fun as => ∃ parts, List.Forall₂ S l parts ∧ as = parts.flatten
  | [], _ => by
    rw [List.flatMapM_nil]
    exact pure ⟨[], .nil, rfl⟩
  | b :: l, h => by
    rw [List.flatMapM_cons]
    refine (h b List.mem_cons_self).bind fun as has => ?_
    refine (flatMapM fun c hc => h c (List.mem_cons_of_mem b hc)).bind fun as' has' => pure ?_
    obtain ⟨parts, hparts, rfl⟩ := has'
    exact ⟨as :: parts, .cons has hparts, rfl⟩

theorem returns (hx : Always x Q) : Returns Q x := by
  rintro a ⟨n, n', hrun⟩
  obtain ⟨b, m, hrun', hQ⟩ := hx n
  have heq : (Except.ok b, m) = (Except.ok a, n') := hrun'.symm.trans hrun
  cases heq
  exact hQ

theorem exists_canReturn (hx : Always x Q) : ∃ a, MonadAttach.CanReturn x a ∧ Q a := by
  obtain ⟨a, n', hrun, hQ⟩ := hx 0
  exact ⟨a, ⟨0, n', hrun⟩, hQ⟩

end Always

/-- Run when the next node has the number `n`, the computation may only give values that satisfy `p` by
the time the next node has the number that `p` is told, and numbers only grow. -/
def From (n : Nat) (p : Nat → α → Prop) (x : Build α) : Prop :=
  ∀ a k, x n = (.ok a, k) → n ≤ k ∧ p k a

theorem exists_of_bind {x : Build α} {f : α → Build β} {n n' : Nat} {b : β}
    (h : (x >>= f) n = (.ok b, n')) : ∃ a m, x n = (.ok a, m) ∧ f a m = (.ok b, n') := by
  rcases hx : x n with ⟨c | a, m⟩
  · have herror : (x >>= f) n = (.error c, m) := by
      show StateT.bind x (ExceptT.bindCont f) n = _
      rw [StateT.bind, hx]
      rfl
    rw [herror] at h
    cases h
  · exact ⟨a, m, rfl, by rw [← h, bind_eq hx]⟩

namespace From
variable {n : Nat} {p q : Nat → α → Prop} {r : Nat → β → Prop} {x : Build α}

theorem pure {a : α} (h : p n a) : From n p (Pure.pure a) := by
  intro b k hrun
  cases hrun
  exact ⟨Nat.le_refl n, h⟩

theorem of_pure {a : α} (h : From n p (Pure.pure a)) : p n a := (h a n rfl).2

theorem throw (c : Clash) : From n p (MonadExcept.throw c : Build α) := by
  intro a k hrun
  cases hrun

theorem bind {f : α → Build β} (hx : From n p x)
    (hf : ∀ k a, n ≤ k → p k a → From k r (f a)) : From n r (x >>= f) := by
  intro b k hrun
  obtain ⟨a, m, ha, hb⟩ := exists_of_bind hrun
  obtain ⟨hm, hp⟩ := hx a m ha
  obtain ⟨hk, hr⟩ := hf m a hm hp b k hb
  exact ⟨Nat.le_trans hm hk, hr⟩

theorem ite {c : Prop} [Decidable c] {y : Build α} (hx : c → From n p x) (hy : ¬c → From n p y) :
    From n p (if c then x else y) := by
  by_cases h : c
  · rw [if_pos h]; exact hx h
  · rw [if_neg h]; exact hy h

theorem of_returns {p : α → Prop} (hp : Returns p x) (hx : From n (fun _ _ => True) x) :
    From n (fun _ => p) x :=
  fun a k hrun => ⟨(hx a k hrun).1, hp.of_eq hrun⟩

/-! #### Loops -/

/-- Every value of a loop over a list satisfies what each step ensures. -/
theorem mapM_all (hr : ∀ {k m b}, k ≤ m → r k b → r m b) {f : α → Build β} :
    ∀ {l : List α} {n : Nat}, (∀ a ∈ l, ∀ k, n ≤ k → From k r (f a)) →
      From n (fun k bs => ∀ b ∈ bs, r k b) (l.mapM f)
  | [], n, _ => by
    rw [List.mapM_nil]
    exact pure (List.forall_mem_nil _)
  | a :: l, n, h => by
    rw [List.mapM_cons]
    refine (h a List.mem_cons_self n (Nat.le_refl n)).bind fun k b hk hb => ?_
    have hrest : From k (fun k bs => ∀ b ∈ bs, r k b) (l.mapM f) :=
      mapM_all hr fun c hc m hm => h c (List.mem_cons_of_mem a hc) m (Nat.le_trans hk hm)
    exact hrest.bind fun m bs hm hbs => pure (List.forall_mem_cons.mpr ⟨hr hm hb, hbs⟩)

/-- An invariant of every step is one of the loop. -/
theorem foldlM {f : β → α → Build β} :
    ∀ {l : List α} {n : Nat} {b : β}, r n b →
      (∀ k b, n ≤ k → r k b → ∀ a ∈ l, From k r (f b a)) → From n r (l.foldlM f b)
  | [], n, b, hb, _ => by
    rw [List.foldlM_nil]
    exact pure hb
  | a :: l, n, b, hb, h => by
    rw [List.foldlM_cons]
    refine (h n b (Nat.le_refl n) hb a List.mem_cons_self).bind fun k c hk hc => ?_
    exact foldlM hc fun m d hm hd e he => h m d (Nat.le_trans hk hm) hd e (List.mem_cons_of_mem a he)

/-- Everything that a joining loop gives satisfies what each step ensures. -/
theorem flatMapM_all (hr : ∀ {k m b}, k ≤ m → r k b → r m b) {f : α → Build (List β)} :
    ∀ {l : List α} {n : Nat}, (∀ a ∈ l, ∀ k, n ≤ k → From k (fun k bs => ∀ b ∈ bs, r k b) (f a)) →
      From n (fun k bs => ∀ b ∈ bs, r k b) (l.flatMapM f)
  | [], n, _ => by
    rw [List.flatMapM_nil]
    exact pure (List.forall_mem_nil _)
  | a :: l, n, h => by
    rw [List.flatMapM_cons]
    refine (h a List.mem_cons_self n (Nat.le_refl n)).bind fun k bs hk hbs => ?_
    have hrest : From k (fun k bs => ∀ b ∈ bs, r k b) (l.flatMapM f) :=
      flatMapM_all hr fun c hc m hm => h c (List.mem_cons_of_mem a hc) m (Nat.le_trans hk hm)
    refine hrest.bind fun m cs hm hcs => pure ?_
    exact List.forall_mem_append.mpr ⟨fun b hb => hr hm (hbs b hb), hcs⟩

end From

end Build

theorem Returns.of_from {p : α → Prop} {x : Build α} (hx : ∀ k, Build.From k (fun _ => p) x) :
    Returns p x := by
  rintro a ⟨n, k, hrun⟩
  exact (hx n a k hrun).2

/-! ### Runs that end well -/

namespace Build

/-- Run when the next node has the number `n`, the computation gives a value that satisfies `p` by the
time the next node has the number that `p` is told. -/
def Gives (n : Nat) (p : Nat → α → Prop) (x : Build α) : Prop :=
  ∃ a k, x n = (.ok a, k) ∧ n ≤ k ∧ p k a

namespace Gives
variable {n : Nat} {p q : Nat → α → Prop} {r : Nat → β → Prop} {x : Build α}

theorem mono (hx : Gives n q x) (hqp : ∀ k a, n ≤ k → q k a → p k a) : Gives n p x := by
  obtain ⟨a, k, hrun, hk, hq⟩ := hx
  exact ⟨a, k, hrun, hk, hqp k a hk hq⟩

theorem pure {a : α} (h : p n a) : Gives n p (Pure.pure a) := ⟨a, n, rfl, Nat.le_refl n, h⟩

theorem bind {f : α → Build β} (hx : Gives n p x)
    (hf : ∀ k a, n ≤ k → p k a → Gives k r (f a)) : Gives n r (x >>= f) := by
  obtain ⟨a, k, hrun, hk, hp⟩ := hx
  obtain ⟨b, m, hrun', hm, hr⟩ := hf k a hk hp
  exact ⟨b, m, by rw [bind_eq hrun, hrun'], Nat.le_trans hk hm, hr⟩

/-- What a computation always gives is what it may give from here on. -/
theorem of_always {q : α → Prop} (hx : From n p x) (hq : Always x q) :
    Gives n (fun k a => p k a ∧ q a) x := by
  obtain ⟨a, k, hrun, hqa⟩ := hq n
  obtain ⟨hk, hpa⟩ := hx a k hrun
  exact ⟨a, k, hrun, hk, hpa, hqa⟩

/-- A loop over a list gives a value for each element, of what is paired with it. -/
theorem mapM {γ : Type} {S : α → γ → Prop} {R : Nat → β → γ → Prop}
    (hR : ∀ {k m b c}, k ≤ m → R k b c → R m b c) {f : α → Build β} {l : List α} {cs : List γ}
    (hl : List.Forall₂ S l cs) : ∀ {n : Nat},
      (∀ a ∈ l, ∀ c, S a c → ∀ k, n ≤ k → Gives k (fun k b => R k b c) (f a)) →
        Gives n (fun k bs => List.Forall₂ (R k) bs cs) (l.mapM f) := by
  induction hl with
  | nil =>
    intro n _
    rw [List.mapM_nil]
    exact pure .nil
  | @cons a c l cs hac _ ih =>
    intro n h
    rw [List.mapM_cons]
    refine (h a List.mem_cons_self c hac n (Nat.le_refl n)).bind fun k b hk hb => ?_
    refine Gives.bind (ih fun d hd e hde m hm => ?_) fun m bs hm hbs => pure (.cons (hR hm hb) hbs)
    exact h d (List.mem_cons_of_mem a hd) e hde m (Nat.le_trans hk hm)

/-- A selecting loop gives what its steps give, without what they leave out. -/
theorem filterMapM {S : α → Option β → Prop} {f : α → Build (Option β)} :
    ∀ {l : List α} {n : Nat}, (∀ a ∈ l, ∀ k, n ≤ k → Gives k (fun _ => S a) (f a)) →
      Gives n (fun _ bs => ∃ os, List.Forall₂ S l os ∧ bs = os.reduceOption) (l.filterMapM f)
  | [], n, _ => by
    rw [List.filterMapM_nil]
    exact pure ⟨[], .nil, rfl⟩
  | a :: l, n, h => by
    rw [List.filterMapM_cons]
    refine (h a List.mem_cons_self n (Nat.le_refl n)).bind fun k o hk ho => ?_
    have hrest : Gives k _ (l.filterMapM f) :=
      filterMapM fun c hc m hm => h c (List.mem_cons_of_mem a hc) m (Nat.le_trans hk hm)
    cases o with
    | none =>
      refine hrest.mono fun _ bs _ hbs => ?_
      obtain ⟨os, hos, rfl⟩ := hbs
      exact ⟨none :: os, .cons ho hos, rfl⟩
    | some b =>
      refine hrest.bind fun m bs _ hbs => pure ?_
      obtain ⟨os, hos, rfl⟩ := hbs
      exact ⟨some b :: os, .cons ho hos, rfl⟩

end Gives

end Build

/-! ### Sessions -/

instance : LawfulMonadLiftT Build SessionM where
  monadLift_pure _ := rfl
  monadLift_bind x f := by
    funext s
    simp only [ExceptT.bind, ExceptT.mk, bind, StateT.bind, monadLift, MonadLiftT.monadLift]
    rcases x s.nodes with ⟨_ | a, n⟩ <;> rfl

theorem Returns.sessionRun {p : α → Prop} {x : SessionM α} (h : Returns p x) (o : Options) :
    Returns (fun r => p r.1) (Session.run o x) := by
  rintro r ⟨n, n', hr⟩
  have hrun : Session.run o x n = (.ok r, n') := hr
  rw [Session.run] at hrun
  cases hx : x { options := o, nodes := n } with
  | mk e s =>
    rw [hx] at hrun
    cases e with
    | error c => cases hrun
    | ok a =>
      cases hrun
      exact h.of_eq hx

end RuleCompiler
