import RuleCompiler.Proofs.Builder.Pairing

/-! # Builders on equal parts

Builders look at what their parts say and never at which nodes these are. So equal parts are put together
to equal terms, whatever the numbers of the nodes, and where one of two such computations ends with a
clash the other one does too. -/

namespace RuleCompiler

open Term (Equal)

/-! ### Computations side by side -/

namespace Build
variable {α β γ δ : Type} {R : α → β → Prop} {S : γ → δ → Prop} {x : Build α} {y : Build β}

/-- The computations end in the same way, with related values, wherever either begins to number nodes. -/
def Agree (R : α → β → Prop) (x : Build α) (y : Build β) : Prop := ∀ n m, Outcomes R (x n).1 (y m).1

namespace Agree

theorem mono {Q : α → β → Prop} (h : Agree Q x y) (hQR : ∀ a b, Q a b → R a b) : Agree R x y :=
  fun n m => (h n m).imp fun a b _ => hQR a b

theorem pure {a : α} {b : β} (h : R a b) : Agree R (Pure.pure a) (Pure.pure b) := fun _ _ => .ok h

theorem throw (c d : Clash) :
    Agree R (MonadExcept.throw c : Build α) (MonadExcept.throw d : Build β) :=
  fun _ _ => .error c d

theorem bind {f : α → Build γ} {g : β → Build δ} (hx : Agree R x y) (hf : ∀ a b, R a b → Agree S (f a) (g b)) :
    Agree S (x >>= f) (y >>= g) := by
  intro n m
  have hout := hx n m
  rw [bind_run, bind_run]
  generalize x n = r, y m = s at hout
  obtain ⟨r, n'⟩ := r
  obtain ⟨s, m'⟩ := s
  cases hout with
  | ok h => exact hf _ _ h n' m'
  | error c d => exact .error c d

theorem mapM {T : γ → δ → Prop} {f : γ → Build α} {g : δ → Build β} {cs : List γ} {ds : List δ}
    (h : List.Forall₂ T cs ds) (hstep : ∀ c ∈ cs, ∀ d, T c d → Agree R (f c) (g d)) :
    Agree (List.Forall₂ R) (cs.mapM f) (ds.mapM g) := by
  induction h with
  | nil => exact .pure .nil
  | @cons c d cs ds hcd _ ih =>
    rw [List.mapM_cons, List.mapM_cons]
    refine (hstep c List.mem_cons_self d hcd).bind fun a b hab => ?_
    exact (ih fun c hc => hstep c (List.mem_cons_of_mem _ hc)).bind fun as bs has => .pure (.cons hab has)

/-- A value may be taken for another that is related to no more. -/
theorem of_pure {a b : α} {z : Build β} (h : Agree R (Pure.pure b) z) (hab : ∀ c, R b c → R a c) :
    Agree R (Pure.pure a) z := by
  intro n m
  obtain ⟨c, hc, hR⟩ := (h n m).exists_right
  rw [hc]
  exact .ok (hab c hR)

/-- Where the one always gives a value, the other gives one that is related to it. -/
theorem always {P : α → Prop} (h : Agree R x y) (hx : Always x P) : Always y fun b => ∃ a, P a ∧ R a b := by
  intro m
  obtain ⟨a, k, hrun, hP⟩ := hx 0
  have hout := h 0 m
  rw [hrun] at hout
  obtain ⟨b, hb, hR⟩ := hout.exists_right
  exact ⟨b, (y m).2, Prod.ext hb rfl, a, hP, hR⟩

/-- What agrees with a computation that gives a value gives such a value itself. -/
theorem always_of_eq (h : Agree R x y) {m m' : Nat} {b : β} (hy : y m = (.ok b, m')) : Always x (R · b) := by
  intro n
  have hout := h n m
  rw [hy] at hout
  obtain ⟨a, ha, hR⟩ := hout.exists_left
  exact ⟨a, (x n).2, Prod.ext ha rfl, hR⟩

/-- Where the one never gives a value, the other does not either. -/
theorem clashes (h : Agree R x y) (hx : Returns (fun _ => False) x) : Returns (fun _ => False) y := by
  rintro b ⟨m, m', hy⟩
  obtain ⟨a, k, hrun, -⟩ := h.always_of_eq hy 0
  exact hx.of_eq hrun

/-- What the two give is related. -/
theorem of_eq (h : Agree R x y) {n n' m m' : Nat} {a : α} {b : β} (hx : x n = (.ok a, n')) (hy : y m = (.ok b, m')) :
    R a b := by
  obtain ⟨a', n'', hx', hR⟩ := h.always_of_eq hy n
  cases hx.symm.trans hx'
  exact hR

end Agree

/-- Both computations end well, with equal terms. -/
def GiveEqual (x y : Build Term) : Prop := Always x fun t => Always y (t == ·)

theorem GiveEqual.of_always {x y : Build Term} {t : Term} (hx : Always x (· == t)) (hy : Always y (· == t)) :
    GiveEqual x y :=
  hx.mono fun _ hu => hy.mono fun _ hv => BEq.trans hu (BEq.symm hv)

theorem GiveEqual.of_agree {x y : Build Term} (hx : Always x fun _ => True)
    (h : Agree (fun t u : Term => t == u) x y) : GiveEqual x y := by
  intro n
  obtain ⟨t, n', hrun, -⟩ := hx n
  refine ⟨t, n', hrun, fun m => ?_⟩
  have hout := h n m
  rw [hrun] at hout
  obtain ⟨u, hu, htu⟩ := hout.exists_right
  exact ⟨u, (y m).2, Prod.ext hu rfl, htu⟩

end Build

open Build (Agree Always)

theorem Term.agree_new {m n : Node Term} (h : Node.Alike (fun t u => t == u) m n) :
    Agree (fun t u : Term => t == u) (Term.new m) (Term.new n) := by
  intro i j
  obtain ⟨t, i', ht, hm⟩ := Term.always_new m i
  obtain ⟨u, j', hu, hn⟩ := Term.always_new n j
  rw [ht, hu]
  refine .ok (Term.beq_of_alike ?_)
  rwa [hm, hn]

/-- Equal terms and computations that agree. Equality does not depend on numbers. -/
def Pairing.equality : Pairing where
  Rel _ t u := t == u
  Runs n R := Agree fun a b => ∃ m, n ≤ m ∧ R m a b
  rel_mono _ h := h
  beq h := h
  alike := Term.alike_of_beq
  mono h hRS := h.mono fun a b ⟨m, hm, hR⟩ => ⟨m, hm, hRS m a b hm hR⟩
  pure h := .pure ⟨_, Nat.le_refl _, h⟩
  throw := .throw
  bind h hf := h.bind fun a b ⟨m, hm, hR⟩ => (hf m a b hm hR).mono fun _ _ ⟨k, hk, hS⟩ => ⟨k, Nat.le_trans hm hk, hS⟩
  new _ h := (Term.agree_new h).mono fun _ _ h => ⟨_, Nat.le_refl _, h⟩

theorem Pairing.agree {α β : Type} {R : α → β → Prop} {x : Build α} {y : Build β}
    (h : equality.Runs 0 (fun _ => R) x y) : Agree R x y :=
  Agree.mono h fun _ _ ⟨_, _, hR⟩ => hR

theorem Term.agree_var (v : Var) : Agree (fun t u : Term => t == u) (Term.var v) (Term.var v) :=
  agree_new .var

variable {t u : Term}

/-! ### Builders -/

theorem Term.agree_sequence {ts us : List Term} (h : Equal ts us) :
    Agree (fun t u : Term => t == u) (Term.sequence ts) (Term.sequence us) :=
  Pairing.agree (Term.runs_sequence h)

theorem ListParts.agree_build {p q : ListParts} (h : p.Alike q) :
    Agree (fun t u : Term => t == u) p.build q.build :=
  Pairing.agree (ListParts.runs_build (P := .equality) (fun _ _ _ => id) (fun _ _ => BEq.rfl)
    ⟨h.ops, h.left, h.base, h.right⟩)

namespace MapParts

/-- The parts have equal entries and equal unknown parts. -/
abbrev Alike (p q : MapParts) : Prop := Paired (fun t u => t == u) p q

theorem Alike.concatAll {p q : MapParts} {ts us : List Term} (hts : Equal ts us) (h : p.Alike q) :
    (ts.foldl MapParts.concat p).Alike (us.foldl MapParts.concat q) :=
  Paired.concatAll (P := .equality) (n := 0) hts h

theorem agree_build {p q : MapParts} (h : p.Alike q) : Agree (fun t u : Term => t == u) p.build q.build :=
  Pairing.agree (runs_build (P := .equality) h)

end MapParts

namespace SetParts

/-- The parts have equal elements and equal unknown parts. -/
abbrev Alike (p q : SetParts) : Prop := Paired (fun t u => t == u) p q

theorem Alike.concatAll {p q : SetParts} {ts us : List Term} (hts : Equal ts us) (h : p.Alike q) :
    (ts.foldl SetParts.concat p).Alike (us.foldl SetParts.concat q) :=
  Paired.concatAll (P := .equality) (n := 0) hts h

theorem agree_build {p q : SetParts} (h : p.Alike q) : Agree (fun t u : Term => t == u) p.build q.build :=
  Pairing.agree (runs_build (P := .equality) h)

end SetParts

namespace CellParts

/-- Cells with one label, one multiplicity and equal contents. -/
abbrev SameCell (c d : Cell) : Prop := PairedCells (fun t u => t == u) c d

/-- The parts have equal cells and the same frames. -/
abbrev Alike (p q : CellParts) : Prop := Paired (fun t u => t == u) p q

theorem agree_build {p q : CellParts} (h : p.Alike q) : Agree (fun t u : Term => t == u) p.build q.build :=
  Pairing.agree (runs_build (P := .equality) h)

end CellParts

/-- A node is made again from equal children and frames to equal terms. -/
theorem Term.agree_rebuild {cs ds fs gs : List Term} (hcs : Equal cs ds) (hfs : Equal fs gs) :
    Agree (fun t u : Term => t == u) (t.rebuild cs fs) (t.rebuild ds gs) :=
  Pairing.agree (runs_rebuild (P := .equality) (fun _ _ _ => id) (fun _ _ => BEq.rfl)
    (fun _ _ _ => (agree_new (.app hcs)).mono fun _ _ h => ⟨0, Nat.le_refl 0, h⟩) (fun _ => BEq.rfl)
    (Node.Alike.of_head rfl)
    hcs hfs)

end RuleCompiler
