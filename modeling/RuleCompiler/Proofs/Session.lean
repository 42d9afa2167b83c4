import RuleCompiler.Proofs.Returns

/-! # Runs of a session -/

namespace RuleCompiler

/-- The session went on from the other one and reported nothing. -/
structure Session.Later (s s' : Session) : Prop where
  queue : s'.queue = s.queue
  options : s'.options = s.options
  nodes : s.nodes ≤ s'.nodes

namespace Session.Later
variable {s s' s'' : Session}

theorem refl (s : Session) : s.Later s := ⟨rfl, rfl, Nat.le_refl _⟩

theorem trans (h : s.Later s') (h' : s'.Later s'') : s.Later s'' :=
  ⟨h'.queue.trans h.queue, h'.options.trans h.options, Nat.le_trans h.nodes h'.nodes⟩

end Session.Later

namespace SessionM
variable {α β : Type} {s s' : Session}

theorem bind_eq {x : SessionM α} {a : α} (h : x s = (.ok a, s')) (f : α → SessionM β) :
    (x >>= f) s = f a s' := by
  simp only [bind, ExceptT.bind, ExceptT.mk, StateT.bind]
  rw [h]
  rfl

theorem lift_eq {b : Build α} {a : α} {k : Nat} (h : b s.nodes = (.ok a, k)) :
    (monadLift b : SessionM α) s = (.ok a, { s with nodes := k }) := by
  show ((b s.nodes).1, { s with nodes := (b s.nodes).2 }) = _
  rw [h]

theorem exists_of_bind {x : SessionM α} {f : α → SessionM β} {b : β} (h : (x >>= f) s = (.ok b, s')) :
    ∃ a s₁, x s = (.ok a, s₁) ∧ f a s₁ = (.ok b, s') := by
  rcases hx : x s with ⟨c | a, s₁⟩
  · have herror : (x >>= f) s = (.error c, s₁) := by
      simp only [bind, ExceptT.bind, ExceptT.mk, StateT.bind]
      rw [hx]
      rfl
    rw [herror] at h
    cases h
  · exact ⟨a, s₁, rfl, by rw [← h, bind_eq hx]⟩

theorem exists_of_lift {b : Build α} {a : α} (h : (monadLift b : SessionM α) s = (.ok a, s')) :
    ∃ k, b s.nodes = (.ok a, k) ∧ s' = { s with nodes := k } := by
  have hrun : (monadLift b : SessionM α) s = ((b s.nodes).1, { s with nodes := (b s.nodes).2 }) := rfl
  obtain ⟨hok, rfl⟩ := Prod.mk.inj (hrun.symm.trans h)
  exact ⟨(b s.nodes).2, Prod.ext hok rfl, rfl⟩

/-- The run of a session of its own that gives a value with the property. -/
theorem exists_run {x : SessionM α} {options : Options} {n : Nat} {p : α × Session → Bool}
    (h : ((Session.run options x).result? n).any p = true) :
    ∃ a s', x { options, nodes := n } = (.ok a, s') ∧ p (a, s') = true := by
  obtain ⟨⟨a, s'⟩, hresult, hp⟩ := (Option.any_eq_true ..).mp h
  obtain ⟨m, hrun⟩ := Build.exists_run hresult
  unfold Session.run at hrun
  split at hrun
  · rename_i hx
    cases hrun
    exact ⟨a, s', hx, hp⟩
  · cases hrun

/-- A report that is made under a condition. -/
theorem of_reportIf {c : Bool} {w : Diagnostic} {f : Unit → SessionM α} :
    (if c = true then Session.report w >>= f else f ()) s =
      f () { s with queue := (if c = true then [w] else []).foldl DiagnosticQueue.add s.queue } := by
  cases c <;> rfl

/-- Run from the session, the computation reports nothing, and it may only give values that satisfy `p` in the session
that it leads to. -/
def From (s : Session) (p : Session → α → Prop) (x : SessionM α) : Prop :=
  ∀ a s', x s = (.ok a, s') → s.Later s' ∧ p s' a

namespace From
variable {p : Session → α → Prop} {q : Session → β → Prop} {x : SessionM α}

theorem pure {a : α} (h : p s a) : From s p (Pure.pure a) := by
  intro a s' hrun
  cases hrun
  exact ⟨.refl s, h⟩

theorem bind {f : α → SessionM β} (hx : From s p x) (hf : ∀ s₁ a, s.Later s₁ → p s₁ a → From s₁ q (f a)) :
    From s q (x >>= f) := by
  intro b s' hrun
  obtain ⟨a, s₁, ha, hb⟩ := exists_of_bind hrun
  obtain ⟨hs₁, hp⟩ := hx a s₁ ha
  obtain ⟨hs', hq⟩ := hf s₁ a hs₁ hp b s' hb
  exact ⟨hs₁.trans hs', hq⟩

theorem lift {p : Nat → α → Prop} {x : Build α} (hx : Build.From s.nodes p x) :
    From s (fun s => p s.nodes) (liftM x : SessionM α) := by
  intro a s' hrun
  obtain ⟨k, hbuild, rfl⟩ := exists_of_lift hrun
  obtain ⟨hk, hp⟩ := hx a k hbuild
  exact ⟨⟨rfl, rfl, hk⟩, hp⟩

/-- Every value of a loop over a list satisfies what each step ensures. -/
theorem mapM_all (hq : ∀ {s s' b}, s.Later s' → q s b → q s' b) {f : α → SessionM β} :
    ∀ {l : List α} {s : Session}, (∀ a ∈ l, ∀ s₁, s.Later s₁ → From s₁ q (f a)) →
      From s (fun s bs => ∀ b ∈ bs, q s b) (l.mapM f)
  | [], s, _ => by
    rw [List.mapM_nil]
    exact pure (List.forall_mem_nil _)
  | a :: l, s, h => by
    rw [List.mapM_cons]
    refine (h a List.mem_cons_self s (.refl s)).bind fun s₁ b hs₁ hb => ?_
    have hrest : From s₁ (fun s bs => ∀ b ∈ bs, q s b) (l.mapM f) :=
      mapM_all hq fun c hc s₂ hs₂ => h c (List.mem_cons_of_mem a hc) s₂ (hs₁.trans hs₂)
    exact hrest.bind fun s₂ bs hs₂ hbs => pure (List.forall_mem_cons.mpr ⟨hq hs₂ hb, hbs⟩)

end From

end SessionM

end RuleCompiler
