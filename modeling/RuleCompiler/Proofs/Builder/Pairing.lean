import RuleCompiler.Proofs.Builder.Cells
import RuleCompiler.Proofs.Builder.Operands
import RuleCompiler.Proofs.Builder.Sequence

/-! # Builders side by side

Builders look at what their parts say, and at nothing else. So from parts that are related in some way the
same things are built, node for node, and these are related in that way again, as long as related terms are
equal and have related children. What it is for computations to be related depends on the relation: a
`Pairing` says both. -/

namespace RuleCompiler

/-! ### Outcomes -/

/-- Both results are values, and related, or both are a clash. -/
inductive Outcomes {α β : Type} (R : α → β → Prop) : Except Clash α → Except Clash β → Prop where
  | ok {a : α} {b : β} (h : R a b) : Outcomes R (.ok a) (.ok b)
  | error (c d : Clash) : Outcomes R (.error c) (.error d)

namespace Outcomes
variable {α β γ : Type} {R : α → β → Prop} {r : Except Clash α} {s : Except Clash β}

theorem imp {S : α → β → Prop} (h : Outcomes R r s) (hRS : ∀ a b, r = .ok a → R a b → S a b) : Outcomes S r s := by
  cases h with
  | ok h => exact .ok (hRS _ _ rfl h)
  | error c d => exact .error c d

theorem exists_right {a : α} (h : Outcomes R (.ok a) s) : ∃ b, s = .ok b ∧ R a b := by
  cases h with
  | ok h => exact ⟨_, rfl, h⟩

theorem exists_left {b : β} (h : Outcomes R r (.ok b)) : ∃ a, r = .ok a ∧ R a b := by
  cases h with
  | ok h => exact ⟨_, rfl, h⟩

/-- Two results that are both related to a third. -/
theorem join {S : γ → β → Prop} {T : α → γ → Prop} {t : Except Clash γ} (h : Outcomes R r s) (h' : Outcomes S t s)
    (hT : ∀ a b c, R a b → S c b → T a c) : Outcomes T r t := by
  cases h with
  | ok h =>
    obtain ⟨c, rfl, hc⟩ := h'.exists_left
    exact .ok (hT _ _ _ h hc)
  | error c d =>
    cases h' with
    | error c' => exact .error c c'

end Outcomes

/-! ### Pairings -/

/-- Whether the node is an application of a label that has a name. -/
def Node.isCall {α : Type} : Node α → Bool
  | app (.const _) .. => true
  | _ => false

/-- A relation between terms that builders respect, and one between computations that give them. Both may
depend on the number of the next node. Calls are no parts of what is built, so nothing is said of new ones. -/
structure Pairing where
  Rel : Nat → Term → Term → Prop
  Runs {α β : Type} : Nat → (Nat → α → β → Prop) → Build α → Build β → Prop
  rel_mono {n m : Nat} {t u : Term} (hm : n ≤ m) (h : Rel n t u) : Rel m t u
  beq {n : Nat} {t u : Term} (h : Rel n t u) : t == u
  alike {n : Nat} {t u : Term} (h : Rel n t u) : Node.Alike (Rel n) t.node u.node
  mono {α β : Type} {n : Nat} {R S : Nat → α → β → Prop} {x : Build α} {y : Build β} (h : Runs n R x y)
    (hRS : ∀ m a b, n ≤ m → R m a b → S m a b) : Runs n S x y
  pure {α β : Type} {n : Nat} {R : Nat → α → β → Prop} {a : α} {b : β} (h : R n a b) :
    Runs n R (Pure.pure a) (Pure.pure b)
  throw {α β : Type} {n : Nat} {R : Nat → α → β → Prop} (c d : Clash) :
    Runs n R (MonadExcept.throw c : Build α) (MonadExcept.throw d : Build β)
  bind {α β γ δ : Type} {n : Nat} {R : Nat → α → β → Prop} {S : Nat → γ → δ → Prop} {x : Build α} {y : Build β}
    {f : α → Build γ} {g : β → Build δ} (h : Runs n R x y)
    (hf : ∀ m a b, n ≤ m → R m a b → Runs m S (f a) (g b)) : Runs n S (x >>= f) (y >>= g)
  new {n : Nat} {m m' : Node Term} (hcall : m.isCall = false) (h : Node.Alike (Rel n) m m') :
    Runs n Rel (Term.new m) (Term.new m')

namespace Pairing
variable {P : Pairing} {n : Nat} {α β γ δ : Type} {R : Nat → α → β → Prop} {S : Nat → γ → δ → Prop} {x : Build α}
  {y : Build β}

/-- Terms related one by one. -/
abbrev RelAll (P : Pairing) (n : Nat) : List Term → List Term → Prop := List.Forall₂ (P.Rel n)

theorem RelAll.mono {m : Nat} {ts us : List Term} (hm : n ≤ m) (h : P.RelAll n ts us) : P.RelAll m ts us :=
  h.imp fun _ _ => P.rel_mono hm

theorem ite {c : Prop} [Decidable c] {x' : Build α} {y' : Build β} (h : c → P.Runs n R x y)
    (h' : ¬c → P.Runs n R x' y') : P.Runs n R (if c then x else x') (if c then y else y') := by
  by_cases hc : c
  · rw [if_pos hc, if_pos hc]; exact h hc
  · rw [if_neg hc, if_neg hc]; exact h' hc

theorem foldlM {T : Nat → γ → δ → Prop} (hT : ∀ {n m c d}, n ≤ m → T n c d → T m c d) {f : α → γ → Build α}
    {g : β → δ → Build β} (hstep : ∀ m a b c d, n ≤ m → R m a b → T m c d → P.Runs m R (f a c) (g b d)) :
    ∀ {cs : List γ} {ds : List δ}, List.Forall₂ (T n) cs ds → ∀ {m : Nat} {a : α} {b : β}, n ≤ m → R m a b →
      P.Runs m R (cs.foldlM f a) (ds.foldlM g b) := by
  intro cs ds h
  induction h with
  | nil =>
    intro m a b _ hab
    rw [List.foldlM_nil, List.foldlM_nil]
    exact P.pure hab
  | cons hcd _ ih =>
    intro m a b hm hab
    rw [List.foldlM_cons, List.foldlM_cons]
    exact P.bind (hstep m _ _ _ _ hm hab (hT hm hcd)) fun k _ _ hk h => ih (Nat.le_trans hm hk) h

/-- Parts are added one after the other. -/
theorem foldlM_terms {f : α → Term → Build α} {g : β → Term → Build β}
    (hstep : ∀ m a b t u, n ≤ m → R m a b → P.Rel m t u → P.Runs m R (f a t) (g b u)) {ts us : List Term}
    (h : P.RelAll n ts us) {a : α} {b : β} (hab : R n a b) : P.Runs n R (ts.foldlM f a) (us.foldlM g b) :=
  foldlM (T := P.Rel) P.rel_mono hstep h (Nat.le_refl n) hab

theorem new_var (v : Var) : P.Runs n P.Rel (Term.var v) (Term.var v) := P.new rfl .var

end Pairing

/-! ### Sorted lists -/

namespace SortedList
variable {α β : Type} {cmp : α → α → Ordering} {R : α → α → Prop}

/-- Related elements compare alike, so they are put in the same places. -/
theorem forall₂_insert (hcmp : ∀ a a' b b', R a a' → R b b' → cmp a b = cmp a' b') {a a' : α} (ha : R a a')
    {l l' : List α} (h : List.Forall₂ R l l') : List.Forall₂ R (insert cmp a l) (insert cmp a' l') := by
  induction h with
  | nil => exact .cons ha .nil
  | cons hb hl ih =>
    rw [insert, insert, hcmp _ _ _ _ hb ha]
    split
    · exact .cons hb ih
    · exact .cons ha (.cons hb hl)

theorem forall₂_sort (hcmp : ∀ a a' b b', R a a' → R b b' → cmp a b = cmp a' b') {l l' : List α}
    (h : List.Forall₂ R l l') : List.Forall₂ R (sort cmp l) (sort cmp l') := by
  induction h with
  | nil => exact .nil
  | cons ha _ ih => exact forall₂_insert hcmp ha ih

theorem forall₂_addNew (hcmp : ∀ a a' b b', R a a' → R b b' → cmp a b = cmp a' b') {a a' : α} (ha : R a a')
    {l l' : List α} (h : List.Forall₂ R l l') : List.Forall₂ R (addNew cmp a l) (addNew cmp a' l') := by
  induction h with
  | nil => exact .cons ha .nil
  | cons hb hl ih =>
    rw [addNew, addNew, hcmp _ _ _ _ ha hb]
    split
    · exact .cons ha (.cons hb hl)
    · exact .cons hb hl
    · exact .cons hb ih

theorem forall₂_put {S : β → β → Prop} (hcmp : ∀ a a' b b', R a a' → R b b' → cmp a b = cmp a' b')
    {key key' : α} {value value' : β} (hk : R key key') (hv : S value value') {l l' : List (α × β)}
    (h : List.Forall₂ (fun e e' => R e.1 e'.1 ∧ S e.2 e'.2) l l') :
    List.Forall₂ (fun e e' => R e.1 e'.1 ∧ S e.2 e'.2) (put cmp key value l) (put cmp key' value' l') := by
  induction h with
  | nil => exact .cons ⟨hk, hv⟩ .nil
  | cons he hl ih =>
    rw [put, put, hcmp _ _ _ _ hk he.1]
    split
    · exact .cons ⟨hk, hv⟩ (.cons he hl)
    · exact .cons ⟨he.1, hv⟩ hl
    · exact .cons he ih

end SortedList

theorem Term.cmp_congr {t t' u u' : Term} (h : t == t') (hu : u == u') : t.cmp u = t'.cmp u' := by
  rw [cmp, cmp, beq_iff.mp h, beq_iff.mp hu]

theorem Pairing.cmp_congr (P : Pairing) (n : Nat) (t t' u u' : Term) (h : P.Rel n t t') (hu : P.Rel n u u') :
    t.cmp u = t'.cmp u' :=
  Term.cmp_congr (P.beq h) (P.beq hu)

variable {P : Pairing} {n : Nat} {t u : Term}

/-! ### Sequences -/

namespace SequenceParts

/-- The items are related, and the frame is the same. -/
structure Paired (R : Term → Term → Prop) (p q : SequenceParts) : Prop where
  items : List.Forall₂ R p.items q.items
  frame : p.frame = q.frame

variable {p q : SequenceParts}

theorem runs_allItems (h : Paired (P.Rel n) p q) : P.Runs n P.RelAll p.allItems q.allItems := by
  unfold allItems
  rw [h.frame]
  cases q.frame with
  | none => exact P.pure h.items
  | some v =>
    refine P.bind (Pairing.new_var v) fun m _ _ hm hv => P.pure ?_
    exact List.rel_append (h.items.imp fun _ _ => P.rel_mono hm) (.cons hv .nil)

theorem runs_add (h : Paired (P.Rel n) p q) (ht : P.Rel n t u) :
    P.Runs n (fun m => Paired (P.Rel m)) (p.add t) (q.add u) := by
  have halike := P.alike ht
  have hitem : P.Runs n (fun m => Paired (P.Rel m)) (do return ⟨(← p.allItems) ++ [t], none⟩)
      (do return ⟨(← q.allItems) ++ [u], none⟩) :=
    P.bind (runs_allItems h) fun m _ _ hm hw =>
      P.pure ⟨List.rel_append hw (.cons (P.rel_mono hm ht) .nil), rfl⟩
  unfold add
  generalize t.node = a, u.node = b at halike
  cases halike with
  | @seq as bs frame has =>
    have hsplice : P.Runs n (fun m => Paired (P.Rel m)) (do return ⟨(← p.allItems) ++ as, frame⟩)
        (do return ⟨(← q.allItems) ++ bs, frame⟩) :=
      P.bind (runs_allItems h) fun m _ _ hm hw =>
        P.pure ⟨List.rel_append hw (Pairing.RelAll.mono hm has), rfl⟩
    cases has with
    | nil =>
      cases frame with
      | none => exact P.pure h
      | some v => exact hsplice
    | cons => exact hsplice
  | @var v =>
    dsimp only
    refine P.bind (runs_allItems h) fun m _ _ hm hw => P.pure ?_
    split
    · exact ⟨hw, rfl⟩
    · exact ⟨List.rel_append hw (.cons (P.rel_mono hm ht) .nil), rfl⟩
  | _ => exact hitem

theorem runs_build (h : Paired (P.Rel n) p q) : P.Runs n P.Rel p.build q.build := by
  obtain ⟨items, frame⟩ := p
  obtain ⟨items', frame'⟩ := q
  obtain ⟨hitems, rfl⟩ := h
  dsimp only at hitems
  have hnew : P.Runs n P.Rel (Term.new (.seq items frame)) (Term.new (.seq items' frame)) := P.new rfl (.seq hitems)
  rcases hitems with _ | ⟨h, _ | _⟩ <;> cases frame <;>
    first
    | exact hnew
    | exact Pairing.new_var _
    | exact P.pure h

end SequenceParts

theorem Term.runs_sequence {ts us : List Term} (h : P.RelAll n ts us) :
    P.Runs n P.Rel (Term.sequence ts) (Term.sequence us) := by
  have hadd : P.Runs n (fun m => SequenceParts.Paired (P.Rel m)) (SequenceParts.addAll {} ts)
      (SequenceParts.addAll {} us) :=
    Pairing.foldlM_terms (fun _ _ _ _ _ _ hp ht => SequenceParts.runs_add hp ht) h ⟨.nil, rfl⟩
  exact P.bind hadd fun _ _ _ _ => SequenceParts.runs_build

/-! ### Lists -/

namespace ListParts

/-- The known items and the unknown parts are related. -/
structure Paired (R : Term → Term → Prop) (p q : ListParts) : Prop where
  ops : p.ops = q.ops
  left : List.Forall₂ R p.left q.left
  base : List.Forall₂ R p.base q.base
  right : List.Forall₂ R p.right q.right

variable {p q : ListParts}

theorem Paired.mono {m : Nat} (hm : n ≤ m) (h : Paired (P.Rel n) p q) : Paired (P.Rel m) p q :=
  ⟨h.ops, Pairing.RelAll.mono hm h.left, Pairing.RelAll.mono hm h.base, Pairing.RelAll.mono hm h.right⟩

theorem Paired.addItem {R : Term → Term → Prop} (h : Paired R p q) (ht : R t u) :
    Paired R (p.addItem t) (q.addItem u) := by
  have hbase := PairedLists.isEmpty_eq h.base
  unfold ListParts.addItem
  rw [hbase]
  split
  · exact ⟨h.ops, List.rel_append h.left (.cons ht .nil), h.base, h.right⟩
  · exact ⟨h.ops, h.left, h.base, List.rel_append h.right (.cons ht .nil)⟩

theorem Paired.addItems {R : Term → Term → Prop} {ts us : List Term} (hts : List.Forall₂ R ts us) :
    ∀ {p q : ListParts}, Paired R p q → Paired R (ts.foldl ListParts.addItem p) (us.foldl ListParts.addItem q) := by
  induction hts with
  | nil => exact id
  | cons ht _ ih => exact fun h => ih (h.addItem ht)

theorem runs_closeRight (h : Paired (P.Rel n) p q) : P.Runs n (fun m p' q' => Paired (P.Rel m) p' q' ∧
    p'.right = [] ∧ q'.right = []) p.closeRight q.closeRight := by
  unfold closeRight
  rw [PairedLists.isEmpty_eq h.right]
  refine Pairing.ite (fun hempty => ?_) fun _ => ?_
  · have hq := List.isEmpty_iff.mp hempty
    have hp := h.right
    rw [hq] at hp
    exact P.pure ⟨h, List.forall₂_nil_right_iff.mp hp, hq⟩
  · refine P.bind (P.new rfl (h.ops ▸ .list h.right .nil .nil)) fun m _ _ hm hrun => P.pure ?_
    have h := h.mono hm
    exact ⟨⟨h.ops, h.left, List.rel_append h.base (.cons hrun .nil), .nil⟩, rfl, rfl⟩

theorem runs_addBase (h : Paired (P.Rel n) p q) (ht : P.Rel n t u) :
    P.Runs n (fun m => Paired (P.Rel m)) (p.addBase t) (q.addBase u) :=
  P.bind (runs_closeRight h) fun _ _ _ hm ⟨h, _⟩ =>
    P.pure ⟨h.ops, h.left, List.rel_append h.base (.cons (P.rel_mono hm ht) .nil), h.right⟩

theorem runs_addOperand (h : Paired (P.Rel n) p q) (ht : P.Rel n t u) :
    P.Runs n (fun m => Paired (P.Rel m)) (p.addOperand t) (q.addOperand u) := by
  unfold addOperand
  rw [isUnresolved_congr h.ops (P.beq ht)]
  exact Pairing.ite (fun _ => runs_addBase h ht) fun _ => P.pure (h.addItem ht)

theorem runs_concat (h : Paired (P.Rel n) p q) (ht : P.Rel n t u) :
    P.Runs n (fun m => Paired (P.Rel m)) (p.concat t) (q.concat u) := by
  have halike := P.alike ht
  have hother : P.Runs n (fun m => Paired (P.Rel m)) (if p.ops.isUnit t then pure p else p.addOperand t)
      (if q.ops.isUnit u then pure q else q.addOperand u) := by
    rw [h.ops, CollectionOps.isUnit_congr (P.beq ht)]
    exact Pairing.ite (fun _ => P.pure h) fun _ => runs_addOperand h ht
  unfold concat
  generalize t.node = a, u.node = b at halike
  cases halike with
  | list hl hb hr =>
    dsimp only
    rw [h.ops, PairedLists.isEmpty_eq hb]
    refine Pairing.ite (fun _ => ?_) fun _ => runs_addOperand h ht
    have hleft := Paired.addItems hl h
    refine Pairing.ite (fun _ => P.pure hleft) fun _ => ?_
    refine P.bind (runs_closeRight hleft) fun _ _ _ hm ⟨h, _⟩ => P.pure ?_
    exact ⟨h.ops, h.left, List.rel_append h.base (Pairing.RelAll.mono hm hb),
      List.rel_append h.right (Pairing.RelAll.mono hm hr)⟩
  | _ => exact hother

/-- What a list is built to: the list, its only part, or the unit where the list is one of a user operator. -/
theorem runs_build {S : Nat → Term → Term → Prop} (hS : ∀ m t u, P.Rel m t u → S m t u)
    (hunit : ∀ m (ops : CollectionOps), S m ops.unitTerm ops.unitTerm) (h : Paired (P.Rel n) p q) :
    P.Runs n S p.build q.build := by
  obtain ⟨ops, left, base, right⟩ := p
  obtain ⟨ops', left', base', right'⟩ := q
  obtain ⟨hops, hl, hb, hr⟩ := h
  dsimp only at hops hl hb hr
  subst hops
  have hnew : P.Runs n S (Term.new (.list ops left base right)) (Term.new (.list ops left' base' right')) :=
    P.mono (P.new rfl (.list hl hb hr)) fun m t u _ => hS m t u
  have hempty {x y : Build Term} (h : P.Runs n S x y) : P.Runs n S
      (if ops.isOperator then Pure.pure ops.unitTerm else x) (if ops.isOperator then Pure.pure ops.unitTerm else y) :=
    Pairing.ite (fun _ => P.pure (hunit n ops)) fun _ => h
  rcases hl with _ | ⟨h, _ | _⟩ <;> rcases hb with _ | ⟨h', _ | _⟩ <;> rcases hr with _ | _ <;>
    first
    | exact hnew
    | exact P.pure (hS _ _ _ h')
    | exact hempty hnew
    | exact Pairing.ite (fun _ => P.pure (hS _ _ _ h)) fun _ => hnew

end ListParts

/-! ### Maps -/

namespace MapParts

/-- The entries and the unknown parts are related. -/
structure Paired (R : Term → Term → Prop) (p q : MapParts) : Prop where
  ops : p.ops = q.ops
  entries : List.Forall₂ (fun e e' => R e.1 e'.1 ∧ R e.2 e'.2) p.entries q.entries
  base : List.Forall₂ R p.base q.base

variable {p q : MapParts}

theorem Paired.put {key key' value value' : Term} (h : Paired (P.Rel n) p q) (hk : P.Rel n key key')
    (hv : P.Rel n value value') : Paired (P.Rel n) (p.put key value) (q.put key' value') :=
  ⟨h.ops, SortedList.forall₂_put (P.cmp_congr n) hk hv h.entries, h.base⟩

theorem Paired.putAll {es es' : List (Term × Term)}
    (hes : List.Forall₂ (fun e e' => P.Rel n e.1 e'.1 ∧ P.Rel n e.2 e'.2) es es') : ∀ {p q : MapParts},
      Paired (P.Rel n) p q → Paired (P.Rel n) (es.foldl (fun p e => p.put e.1 e.2) p)
        (es'.foldl (fun p e => p.put e.1 e.2) q) := by
  induction hes with
  | nil => exact id
  | cons he _ ih => exact fun h => ih (h.put he.1 he.2)

theorem Paired.concat (h : Paired (P.Rel n) p q) (ht : P.Rel n t u) :
    Paired (P.Rel n) (p.concat t) (q.concat u) := by
  have halike := P.alike ht
  have hone : Paired (P.Rel n) { p with base := p.base ++ [t] } { q with base := q.base ++ [u] } :=
    ⟨h.ops, h.entries, List.rel_append h.base (.cons ht .nil)⟩
  have hother : Paired (P.Rel n) (if p.ops.isUnit t then p else { p with base := p.base ++ [t] })
      (if q.ops.isUnit u then q else { q with base := q.base ++ [u] }) := by
    have hunit : q.ops.isUnit t = q.ops.isUnit u := CollectionOps.isUnit_congr (P.beq ht)
    rw [← hunit, ← h.ops]
    split
    · exact h
    · exact h.ops ▸ hone
  unfold MapParts.concat
  generalize t.node = a, u.node = b at halike
  cases halike with
  | map he hb =>
    dsimp only
    rw [h.ops]
    split
    · have hput := Paired.putAll he h
      exact ⟨hput.ops, hput.entries, List.rel_append hput.base hb⟩
    · exact h.ops ▸ hone
  | _ => exact hother

theorem Paired.concatAll {ts us : List Term} (hts : P.RelAll n ts us) : ∀ {p q : MapParts},
    Paired (P.Rel n) p q → Paired (P.Rel n) (ts.foldl MapParts.concat p) (us.foldl MapParts.concat q) := by
  induction hts with
  | nil => exact id
  | cons ht _ ih => exact fun h => ih (h.concat ht)

theorem runs_build (h : Paired (P.Rel n) p q) : P.Runs n P.Rel p.build q.build := by
  obtain ⟨ops, entries, base⟩ := p
  obtain ⟨ops', entries', base'⟩ := q
  obtain ⟨hops, he, hb⟩ := h
  dsimp only at hops he hb
  subst hops
  have hnew : P.Runs n P.Rel (Term.new (.map ops entries (SortedList.sort Term.cmp base)))
      (Term.new (.map ops entries' (SortedList.sort Term.cmp base'))) :=
    P.new rfl (.map he (SortedList.forall₂_sort (P.cmp_congr n) hb))
  rcases he with _ | _ <;> rcases hb with _ | ⟨h, _ | _⟩ <;>
    first
    | exact hnew
    | exact P.pure h

end MapParts

/-! ### Sets -/

namespace SetParts

/-- The elements and the unknown parts are related. -/
structure Paired (R : Term → Term → Prop) (p q : SetParts) : Prop where
  ops : p.ops = q.ops
  elements : List.Forall₂ R p.elements q.elements
  base : List.Forall₂ R p.base q.base

variable {p q : SetParts}

theorem Paired.add (h : Paired (P.Rel n) p q) (ht : P.Rel n t u) : Paired (P.Rel n) (p.add t) (q.add u) :=
  ⟨h.ops, SortedList.forall₂_addNew (P.cmp_congr n) ht h.elements, h.base⟩

theorem Paired.addAll {ts us : List Term} (hts : P.RelAll n ts us) : ∀ {p q : SetParts},
    Paired (P.Rel n) p q → Paired (P.Rel n) (ts.foldl SetParts.add p) (us.foldl SetParts.add q) := by
  induction hts with
  | nil => exact id
  | cons ht _ ih => exact fun h => ih (h.add ht)

theorem Paired.concat (h : Paired (P.Rel n) p q) (ht : P.Rel n t u) :
    Paired (P.Rel n) (p.concat t) (q.concat u) := by
  have halike := P.alike ht
  have hone : Paired (P.Rel n) { p with base := p.base ++ [t] } { q with base := q.base ++ [u] } :=
    ⟨h.ops, h.elements, List.rel_append h.base (.cons ht .nil)⟩
  have hother : Paired (P.Rel n) (if p.ops.isUnit t then p else { p with base := p.base ++ [t] })
      (if q.ops.isUnit u then q else { q with base := q.base ++ [u] }) := by
    have hunit : q.ops.isUnit t = q.ops.isUnit u := CollectionOps.isUnit_congr (P.beq ht)
    rw [← hunit, ← h.ops]
    split
    · exact h
    · exact h.ops ▸ hone
  unfold SetParts.concat
  generalize t.node = a, u.node = b at halike
  cases halike with
  | set he hb =>
    dsimp only
    rw [h.ops]
    split
    · have hadd := Paired.addAll he h
      exact ⟨hadd.ops, hadd.elements, List.rel_append hadd.base hb⟩
    · exact h.ops ▸ hone
  | _ => exact hother

theorem Paired.concatAll {ts us : List Term} (hts : P.RelAll n ts us) : ∀ {p q : SetParts},
    Paired (P.Rel n) p q → Paired (P.Rel n) (ts.foldl SetParts.concat p) (us.foldl SetParts.concat q) := by
  induction hts with
  | nil => exact id
  | cons ht _ ih => exact fun h => ih (h.concat ht)

theorem runs_build (h : Paired (P.Rel n) p q) : P.Runs n P.Rel p.build q.build := by
  obtain ⟨ops, elements, base⟩ := p
  obtain ⟨ops', elements', base'⟩ := q
  obtain ⟨hops, he, hb⟩ := h
  dsimp only at hops he hb
  subst hops
  have hnew : P.Runs n P.Rel (Term.new (.set ops elements (SortedList.sort Term.cmp base)))
      (Term.new (.set ops elements' (SortedList.sort Term.cmp base'))) :=
    P.new rfl (.set he (SortedList.forall₂_sort (P.cmp_congr n) hb))
  rcases he with _ | _ <;> rcases hb with _ | ⟨h, _ | _⟩ <;>
    first
    | exact hnew
    | exact P.pure h

end SetParts

/-! ### Cells -/

namespace CellParts

/-- Cells with one label and one multiplicity, and with related contents. -/
abbrev PairedCells (R : Term → Term → Prop) (c d : Cell) : Prop :=
  c.label = d.label ∧ c.multiplicity = d.multiplicity ∧ R c.content d.content

/-- The cells are related, and the frames are the same. -/
structure Paired (R : Term → Term → Prop) (p q : CellParts) : Prop where
  cells : List.Forall₂ (PairedCells R) p.cells q.cells
  frames : p.frames = q.frames

variable {p q : CellParts}

theorem runs_concat (h : Paired (P.Rel n) p q) (ht : P.Rel n t u) :
    P.Runs n (fun m => Paired (P.Rel m)) (p.concat t) (q.concat u) := by
  have halike := P.alike ht
  unfold concat
  generalize t.node = a, u.node = b at halike
  cases halike with
  | cells hcs => exact P.pure ⟨List.rel_append h.cells hcs, congrArg (· ++ _) h.frames⟩
  | var => exact P.pure ⟨h.cells, congrArg (· ++ _) h.frames⟩
  | _ => exact P.throw _ _

theorem compareCells_congr {c c' d d' : Cell} (h : PairedCells (P.Rel n) c c') (h' : PairedCells (P.Rel n) d d') :
    compareCells c d = compareCells c' d' := by
  rw [compareCells, compareCells, h.1, h'.1, P.cmp_congr n _ _ _ _ h.2.2 h'.2.2]

theorem runs_build (h : Paired (P.Rel n) p q) : P.Runs n P.Rel p.build q.build := by
  obtain ⟨cs, frames⟩ := p
  obtain ⟨cs', frames'⟩ := q
  obtain ⟨hcs, rfl⟩ := h
  dsimp only at hcs
  have hnew : P.Runs n P.Rel
      (Term.new (.cells (SortedList.sort compareCells cs) (SortedList.sort compareFrames frames)))
      (Term.new (.cells (SortedList.sort compareCells cs') (SortedList.sort compareFrames frames))) :=
    P.new rfl (.cells (SortedList.forall₂_sort (R := PairedCells (P.Rel n)) (fun _ _ _ _ => compareCells_congr) hcs))
  cases hcs with
  | nil =>
    rcases frames with _ | ⟨v, _ | _⟩
    · exact hnew
    · exact Pairing.new_var v
    · exact hnew
  | cons => exact hnew

end CellParts

theorem Term.runs_cellsFrom {cs ds : List Cell} {fs gs : List Term}
    (h : List.Forall₂ (CellParts.PairedCells (P.Rel n)) cs ds) (hfs : P.RelAll n fs gs) :
    P.Runs n P.Rel (Term.cellsFrom cs fs) (Term.cellsFrom ds gs) := by
  have hframes : P.Runs n (fun m => CellParts.Paired (P.Rel m)) (fs.foldlM CellParts.concat { cells := cs })
      (gs.foldlM CellParts.concat { cells := ds }) :=
    Pairing.foldlM_terms (fun _ _ _ _ _ _ hp ht => CellParts.runs_concat hp ht) hfs ⟨h, rfl⟩
  exact P.bind hframes fun _ _ _ _ => CellParts.runs_build

/-! ### Nodes made again -/

namespace Term
variable {cs ds fs gs : List Term}

theorem forall₂_pairUp {R : Term → Term → Prop} (h : List.Forall₂ R cs ds) :
    List.Forall₂ (fun e e' => R e.1 e'.1 ∧ R e.2 e'.2) (pairUp cs) (pairUp ds) := by
  induction cs using pairUp.induct generalizing ds with
  | case1 k v cs ih =>
    cases h with
    | cons hk h =>
    cases h with
    | cons hv h => exact .cons ⟨hk, hv⟩ (ih h)
  | case2 cs hcs =>
    have hds : pairUp ds = [] := by
      unfold pairUp
      split
      · cases h with
        | cons _ h =>
        cases h with
        | cons _ h => exact (hcs _ _ _ rfl).elim
      · rfl
    rw [hds]
    unfold pairUp
    split
    · exact (hcs _ _ _ rfl).elim
    · exact .nil

theorem forall₂_refill {R : Term → Term → Prop} {ts us : List (Option Term)} {Q : Term → Term → Prop}
    (h : List.Forall₂ (Option.Rel Q) ts us) (hcs : List.Forall₂ R cs ds) :
    List.Forall₂ (Option.Rel R) (refill ts cs) (refill us ds) := by
  induction h generalizing cs ds with
  | nil =>
    unfold refill
    exact .nil
  | cons ho _ ih =>
    cases ho with
    | none =>
      rw [refill, refill]
      exact .cons .none (ih hcs)
    | some =>
      cases hcs with
      | nil =>
        unfold refill
        exact .nil
      | cons hc h =>
        rw [refill, refill]
        exact .cons (.some hc) (ih h)

/-- A node is made again from related children and frames to related terms. A call that is made so, and the unit
of a list, need only be related as wholes are. -/
theorem runs_rebuild {S : Nat → Term → Term → Prop} (hS : ∀ m t u, P.Rel m t u → S m t u)
    (hunit : ∀ m (ops : CollectionOps), S m ops.unitTerm ops.unitTerm)
    (hcall : ∀ l s, t.node.isCall → P.Runs n S (new (.app (.const l) cs s)) (new (.app (.const l) ds s)))
    (hself : t.node.isLeaf ∨ cs.length ≠ t.children.length → S n t u)
    (ht : Node.Alike (fun _ _ => True) t.node u.node) (hcs : P.RelAll n cs ds) (hfs : P.RelAll n fs gs) :
    P.Runs n S (t.rebuild cs fs) (u.rebuild ds gs) := by
  have hpart {x y : Build Term} (h : P.Runs n P.Rel x y) : P.Runs n S x y := P.mono h fun m t u _ => hS m t u
  have htake (k : Nat) : P.RelAll n (cs.take k) (ds.take k) := List.forall₂_take k hcs
  have hdrop (k : Nat) : P.RelAll n (cs.drop k) (ds.drop k) := List.forall₂_drop k hcs
  have hlen := hcs.length_eq
  rw [children] at hself
  unfold rebuild
  generalize t.node = a, u.node = b at ht hself hcall
  cases ht with
  | app => exact hcall _ _ rfl
  | freezer =>
    cases hcs with
    | nil => exact P.pure (hself (.inr (by simp [Node.children])))
    | cons hf h => exact hpart (P.new rfl (.freezer hf h))
  | seq => exact hpart (runs_sequence (List.rel_append hcs hfs))
  | @list ops left _ base _ _ _ hl hb hr =>
    simp only [List.splitAt_eq, ← hl.length_eq, ← hb.length_eq]
    have hadd (m : Nat) (p q : ListParts) (c d : Term) (_ : n ≤ m) (h : ListParts.Paired (P.Rel m) p q)
        (hcd : P.Rel m c d) : P.Runs m (fun m => ListParts.Paired (P.Rel m))
          (if ops.isOperator then p.concat c else Pure.pure (p.addItem c))
          (if ops.isOperator then q.concat d else Pure.pure (q.addItem d)) :=
      Pairing.ite (fun _ => ListParts.runs_concat h hcd) fun _ => P.pure (h.addItem hcd)
    have hempty : ListParts.Paired (P.Rel n) { ops } { ops } := ⟨rfl, .nil, .nil, .nil⟩
    refine P.bind (Pairing.foldlM_terms hadd (htake left.length) hempty) fun m p q hm h => ?_
    have hrest : P.RelAll m (cs.drop left.length) (ds.drop left.length) := (hdrop _).mono hm
    refine P.bind (Pairing.foldlM_terms (fun _ _ _ _ _ _ hp ht => ListParts.runs_concat hp ht)
      (List.forall₂_take base.length hrest) h) fun k p q hk h => ?_
    have hright : P.RelAll k ((cs.drop left.length).drop base.length) ((ds.drop left.length).drop base.length) :=
      Pairing.RelAll.mono hk (List.forall₂_drop base.length hrest)
    refine P.bind (Pairing.foldlM_terms (fun i p q c d hi => hadd i p q c d (by omega)) hright h)
      fun _ _ _ _ => ListParts.runs_build hS hunit
  | @map _ es _ _ _ he =>
    simp only [List.splitAt_eq, ← he.length_eq]
    refine hpart (MapParts.runs_build (.concatAll (hdrop _) (.putAll (forall₂_pairUp (htake _)) ?_)))
    exact ⟨rfl, .nil, .nil⟩
  | set he =>
    simp only [List.splitAt_eq, ← he.length_eq]
    exact hpart (SetParts.runs_build (.concatAll (hdrop _) (.addAll (htake _) ⟨rfl, .nil, .nil⟩)))
  | cells h =>
    refine hpart (runs_cellsFrom ?_ hfs)
    clear hself htake hdrop hlen hcall
    induction h generalizing cs ds with
    | nil => exact .nil
    | cons hc _ ih =>
      cases hcs with
      | nil => exact .nil
      | cons hcd h => exact .cons ⟨hc.1, hc.2.1, hcd⟩ (ih h)
  | rewrite =>
    rcases hcs with _ | ⟨hl, _ | ⟨hr, _ | _⟩⟩
    · exact P.pure (hself (.inr (by simp [Node.children])))
    · exact P.pure (hself (.inr (by simp [Node.children])))
    · exact hpart (P.new rfl (.rewrite hl hr))
    · exact P.pure (hself (.inr (by simp [Node.children])))
  | disjunction h =>
    refine hpart (P.new rfl (.disjunction ?_))
    clear hself htake hdrop hlen hcall
    induction h generalizing cs ds with
    | nil => exact .nil
    | cons hb _ ih =>
      cases hcs with
      | nil => exact .nil
      | cons hcd h => exact .cons ⟨hcd, hb.2⟩ (ih h)
  | rightSides h => exact hpart (P.new rfl (.rightSides (forall₂_refill h hcs)))
  | _ => exact P.pure (hself (.inl rfl))

end Term

end RuleCompiler
