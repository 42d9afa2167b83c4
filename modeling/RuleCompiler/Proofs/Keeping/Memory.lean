import RuleCompiler.Proofs.Builder.Stages
import RuleCompiler.Proofs.Term.FlagCache
import RuleCompiler.Term.FlagCache

/-! # Memories

A memory is a stage that says which node has a number, and which flags are kept with it. A memory has a
term if each of its nodes is the one with its number and if the flags that are kept with it are exact. Then
a node without a place below another one may be given other contents or be marked: no flags were computed
from its own, as far as the terms are concerned that do not hold it. -/

namespace RuleCompiler

open Build (Leads)
open Term (IsNode IsHeap forall_mem_nodes)

/-- The nodes made so far and the flags that are kept with them, by number. -/
structure Memory where
  next : Nat
  cache : FlagCache
  node : Nat → Term

namespace Memory

/-- What the earlier memory knows the later one knows too. -/
instance : Stage Memory where
  le i j := i.next ≤ j.next ∧ ∀ id < i.next, j.cache id = i.cache id ∧ j.node id = i.node id
  le_refl i := ⟨Nat.le_refl _, fun _ _ => ⟨rfl, rfl⟩⟩
  le_trans i j k h h' := by
    refine ⟨Nat.le_trans h.1 h'.1, fun id hid => ?_⟩
    obtain ⟨hcache, hnode⟩ := h.2 id hid
    obtain ⟨hcache', hnode'⟩ := h'.2 id (Nat.lt_of_lt_of_le hid h.1)
    exact ⟨hcache'.trans hcache, hnode'.trans hnode⟩
  next := next

/-- The node is the one that has its number, and the flags that are kept with it are exact. Canonical nodes
have no numbers and cannot be edited. -/
structure Knows (i : Memory) (c : Term) : Prop where
  frozen (hc : c.isCanonical) : c.isEditable = false
  id_lt (hc : c.isCanonical = false) : c.mark.id < i.next
  node_eq (hc : c.isCanonical = false) : i.node c.mark.id = c
  cache_eq (hc : c.isCanonical = false) : i.cache c.mark.id = c.exactFlags

/-- The memory knows every node of the term. -/
def Has (i : Memory) (t : Term) : Prop := ∀ c ∈ t.nodes, i.Knows c

/-- No node of the term has the number. -/
def Lacks (id : Nat) (t : Term) : Prop := ∀ c ∈ t.nodes, c.isCanonical = false → c.mark.id ≠ id

variable {i j : Memory} {t u c : Term} {id : Nat}

theorem has_iff : i.Has t ↔ i.Knows t ∧ ∀ c ∈ t.children, i.Has c := forall_mem_nodes

theorem lacks_iff : Lacks id t ↔ (t.isCanonical = false → t.mark.id ≠ id) ∧ ∀ c ∈ t.children, Lacks id c :=
  forall_mem_nodes

namespace Has

theorem self (h : i.Has t) : i.Knows t := (has_iff.mp h).1

theorem child (h : i.Has t) (hc : c ∈ t.children) : i.Has c := (has_iff.mp h).2 c hc

theorem of_mem_nodes (h : i.Has t) (hc : c ∈ t.nodes) : i.Has c := fun d hd =>
  h d (Term.mem_nodes_iff.mpr ((Term.mem_nodes_iff.mp hc).trans (Term.mem_nodes_iff.mp hd)))

theorem of_isNode {ts : List Term} (hts : ∀ t ∈ ts, i.Has t) (h : IsNode ts u) : i.Has u := by
  obtain ⟨t, ht, h⟩ := Term.isNode_iff_mem_nodes.mp h
  exact (hts t ht).of_mem_nodes h

theorem mono (hij : i ≤ j) (h : i.Has t) : j.Has t := fun c hc => by
  have hknows := h c hc
  refine ⟨hknows.frozen, fun hcanonical => ?_, fun hcanonical => ?_, fun hcanonical => ?_⟩
  · exact Nat.lt_of_lt_of_le (hknows.id_lt hcanonical) hij.1
  · rw [(hij.2 _ (hknows.id_lt hcanonical)).2, hknows.node_eq hcanonical]
  · rw [(hij.2 _ (hknows.id_lt hcanonical)).1, hknows.cache_eq hcanonical]

/-- Canonical nodes need no memory. -/
theorem of_isCanonical (hc : t.isCanonical) (hedit : t.isEditable = false) : i.Has t := by
  have hnot {p : Prop} (hf : t.isCanonical = false) : p := by rw [hc] at hf; cases hf
  refine has_iff.mpr ⟨⟨fun _ => hedit, hnot, hnot, hnot⟩, fun c hcc => ?_⟩
  rw [Term.children_of_isCanonical hc] at hcc
  cases hcc

/-- The flags that are kept with a node are exact. -/
theorem get_eq (h : i.Has t) : i.cache.get t = t.exactFlags := by
  unfold FlagCache.get
  split
  · rename_i hc
    have hchildren : t.node.children = [] := Term.children_of_isCanonical hc
    rw [Term.exactFlags_eq, h.self.frozen hc]
    exact Node.flagsFrom_congr (hchildren ▸ List.forall_mem_nil _)
  · rename_i hc
    exact h.self.cache_eq (by simpa using hc)

theorem lacks_of_le (h : i.Has t) (hid : i.next ≤ id) : Lacks id t :=
  fun c hc hcanonical => Nat.ne_of_lt (Nat.lt_of_lt_of_le ((h c hc).id_lt hcanonical) hid)

/-- What is below a node is another node. -/
theorem lacks_below (h : i.Has t) (hcanonical : t.isCanonical = false) (hc : c ∈ t.children) : Lacks t.mark.id c := by
  intro d hd hdcanonical hid
  -- the two would be one, and no term is a part of itself
  have hdt : d = t := by
    rw [← (h.child hc d hd).node_eq hdcanonical, hid, h.self.node_eq hcanonical]
  have hbelow : IsNode t.children d := Term.isNode_iff_mem_nodes.mpr ⟨c, hc, hd⟩
  rw [hdt] at hbelow
  exact Term.not_isNode_children t hbelow

end Has

/-! ### Nodes put in place -/

/-- A node in its place, with flags. -/
def put (i : Memory) (t : Term) (flags : NodeFlags) : Memory where
  next := i.next
  cache := i.cache.set t.mark.id flags
  node id := if id = t.mark.id then t else i.node id

/-- Terms that do not hold the node stay what they are. -/
theorem Has.put (h : i.Has u) (hu : Lacks t.mark.id u) (flags : NodeFlags) : (i.put t flags).Has u := fun c hc => by
  have hknows := h c hc
  refine ⟨hknows.frozen, hknows.id_lt, fun hcanonical => ?_, fun hcanonical => ?_⟩
  · exact (if_neg (hu c hc hcanonical)).trans (hknows.node_eq hcanonical)
  · exact (if_neg (hu c hc hcanonical)).trans (hknows.cache_eq hcanonical)

/-- A node over terms that do not hold it has its place, if its flags are exact. -/
theorem has_put (hcanonical : t.isCanonical = false) (hid : t.mark.id < i.next)
    (hbelow : ∀ c ∈ t.children, i.Has c ∧ Lacks t.mark.id c) : (i.put t t.exactFlags).Has t := by
  refine has_iff.mpr ⟨⟨fun hc => ?_, fun _ => hid, fun _ => if_pos rfl, fun _ => if_pos rfl⟩, fun c hc => ?_⟩
  · rw [hcanonical] at hc
    cases hc
  · exact (hbelow c hc).1.put (hbelow c hc).2 _

/-- Nothing is forgotten that was known before the node was made. -/
theorem le_put (hij : i ≤ j) (hid : i.next ≤ t.mark.id) (flags : NodeFlags) : i ≤ j.put t flags := by
  refine ⟨hij.1, fun id hlt => ?_⟩
  have hne : id ≠ t.mark.id := Nat.ne_of_lt (Nat.lt_of_lt_of_le hlt hid)
  exact ⟨(if_neg hne).trans (hij.2 id hlt).1, (if_neg hne).trans (hij.2 id hlt).2⟩

/-- The flags of a node are computed from those that are kept with its children. -/
theorem flagsFrom_eq {m : Node Term} (h : ∀ c ∈ m.children, i.Has c) :
    m.flagsFrom i.cache.get = m.flagsFrom Term.exactFlags :=
  Node.flagsFrom_congr fun c hc => (h c hc).get_eq

/-! ### Nodes made -/

/-- One number more. -/
def raise (i : Memory) : Memory := { i with next := i.next + 1 }

theorem le_raise (i : Memory) : i ≤ i.raise := ⟨Nat.le_succ _, fun _ _ => ⟨rfl, rfl⟩⟩

/-- A new node gets the next number. -/
theorem leads_make {m : Node Term} (hcanonical : m.isCanonical = false) (hc : ∀ c ∈ m.children, i.Has c) (b : Bool) :
    ∃ j, i ≤ j ∧ j.next = i.next + 1 ∧ j.Has ⟨⟨i.next, b⟩, m⟩ := by
  let t : Term := ⟨⟨i.next, b⟩, m⟩
  refine ⟨i.raise.put t t.exactFlags, le_put i.le_raise (Nat.le_refl _) _, rfl, ?_⟩
  exact has_put hcanonical (Nat.lt_succ_self _) fun c hm =>
    ⟨(hc c hm).mono i.le_raise, (hc c hm).lacks_of_le (Nat.le_refl _)⟩

theorem leads_new {m : Node Term} (hc : ∀ c ∈ m.children, i.Has c) : Leads i Has (Term.new m) := by
  unfold Term.new
  refine .ite (fun hm => .pure (.of_isCanonical hm rfl)) fun hm => ?_
  obtain ⟨j, hij, hnext, hj⟩ := leads_make (by simpa using hm) hc false
  refine ⟨j, hij, hnext, fun t ht => ?_⟩
  cases ht
  exact hj

/-- A copy is a new node with the contents and the mark of the old one. -/
theorem leads_copy (h : i.Has t) : Leads i (fun j u => j.Has u ∧ u.node = t.node ∧ u.isEditable = t.isEditable ∧
    (t.isCanonical = false → i.next ≤ u.mark.id)) t.copy := by
  unfold Term.copy
  refine .ite (fun hm => .pure ⟨h, rfl, rfl, fun hc => ?_⟩) fun hm => ?_
  · rw [hm] at hc
    cases hc
  · obtain ⟨j, hij, hnext, hj⟩ := leads_make (m := t.node) ((Bool.not_eq_true _).mp hm) (fun c hc => h.child hc)
      t.isEditable
    refine ⟨j, hij, hnext, fun u hu => ?_⟩
    cases hu
    exact ⟨hj, rfl, rfl, fun _ => Nat.le_refl _⟩

/-- Builders make nodes of the memory. -/
theorem keeps_has (i : Memory) : Keeps i Has fun _ => True where
  mono := Has.mono
  part h _ hc := h.child hc
  frame _ _ := trivial
  var _ _ := trivial
  newVar _ _ := leads_new (List.forall_mem_nil _)
  new _ _ hc _ := leads_new hc

end Memory

/-! ## Computations with flags beside those without

A computation that keeps flags does what the computation does that does not, and leaves behind a memory. It
is told apart what that memory is later than: nodes made since then may be marked, the others may not. -/

open Memory (Has)

/-- Begun in the memory `i`, `x` ends like `y`, with as many nodes made, in a memory later than `b`; a value
that both give satisfies `p` there. -/
def Keeping.Runs {α : Type} (b i : Memory) (p : Memory → α → Prop) (x : Keeping α) (y : Build α) : Prop :=
  ∃ j, b ≤ j ∧ (y i.next).2 = j.next ∧ x i.cache i.next = ((y i.next).1.map (·, j.cache), j.next) ∧
    ∀ a, (y i.next).1 = .ok a → p j a

namespace Keeping.Runs
variable {α β : Type} {b c i : Memory} {p q : Memory → α → Prop} {r : Memory → β → Prop} {x : Keeping α} {y : Build α}

theorem mono (h : Runs b i p x y) (hpq : ∀ j a, b ≤ j → p j a → q j a) : Runs b i q x y := by
  obtain ⟨j, hj, hnext, hx, hp⟩ := h
  exact ⟨j, hj, hnext, hx, fun a ha => hpq j a hj (hp a ha)⟩

theorem pure {a : α} (hb : b ≤ i) (h : p i a) : Runs b i p (Pure.pure a) (Pure.pure a) :=
  ⟨i, hb, rfl, rfl, fun _ ha => by cases ha; exact h⟩

theorem bind {f : α → Keeping β} {g : α → Build β} (hc : b ≤ c) (h : Runs c i p x y)
    (hf : ∀ j a, c ≤ j → p j a → Runs b j r (f a) (g a)) : Runs b i r (x >>= f) (y >>= g) := by
  obtain ⟨j, hj, hnext, hx, hp⟩ := h
  have hbind : (x >>= f) i.cache i.next = (x i.cache >>= fun e => f e.1 e.2) i.next := rfl
  unfold Runs
  rw [hbind, Build.bind_run, Build.bind_run, hx]
  generalize y i.next = o at hnext hp
  obtain ⟨e | a, n⟩ := o
  · exact ⟨j, le_trans hc hj, hnext, rfl, fun _ h => by cases h⟩
  · dsimp only at hnext
    subst hnext
    exact hf j a hj (hp a rfl)

end Keeping.Runs

/-- Computations with flags and what they are without. -/
class Beside (k m : Type → Type) [Monad k] [Monad m] [MonadLiftT Keeping k] [MonadLiftT Build m] where
  Runs {α : Type} (b i : Memory) (p : Memory → α → Prop) (x : k α) (y : m α) : Prop
  mono {α : Type} {b i : Memory} {p q : Memory → α → Prop} {x : k α} {y : m α} (h : Runs b i p x y)
    (hpq : ∀ j a, b ≤ j → p j a → q j a) : Runs b i q x y
  pure {α : Type} {b i : Memory} {p : Memory → α → Prop} {a : α} (hb : b ≤ i) (h : p i a) :
    Runs b i p (Pure.pure a) (Pure.pure a)
  /-- What is later than a memory is later than one before it. -/
  bind {α β : Type} {b c i : Memory} {p : Memory → α → Prop} {q : Memory → β → Prop} {x : k α} {y : m α} {f : α → k β}
    {g : α → m β} (hc : b ≤ c) (h : Runs c i p x y) (hf : ∀ j a, c ≤ j → p j a → Runs b j q (f a) (g a)) :
    Runs b i q (x >>= f) (y >>= g)
  lift {α : Type} {b i : Memory} {p : Memory → α → Prop} {x : Keeping α} {y : Build α} (h : Keeping.Runs b i p x y) :
    Runs b i p (liftM x) (liftM y)

instance : Beside Keeping Build where
  Runs := Keeping.Runs
  mono := .mono
  pure := .pure
  bind := .bind
  lift := id

/-- The walk may have a state of its own, in which there are no terms. -/
instance (σ : Type) : Beside (StateT σ Keeping) (StateT σ Build) where
  Runs b i p x y := ∀ s, Keeping.Runs b i (fun j e => p j e.1) (x s) (y s)
  mono h hpq s := (h s).mono fun j e hj => hpq j e.1 hj
  pure hb h _ := .pure hb h
  bind hc h hf s := .bind hc (h s) fun j e hj he => hf j e.1 hj he e.2
  lift {α _ _ p _ _} h s := .bind (r := fun j (e : α × σ) => p j e.1) (f := fun a => Pure.pure (a, s))
    (g := fun a => Pure.pure (a, s)) (le_refl _) h fun _ _ hj ha => .pure hj ha

/-! ### Loops -/

namespace Beside
variable {k m : Type → Type} [Monad k] [LawfulMonad k] [Monad m] [LawfulMonad m] [MonadLiftT Keeping k]
  [MonadLiftT Build m] [Beside k m] {α β : Type} {b c i : Memory} {p q : Memory → α → Prop}

/-- What is later than a memory is later than one before it. -/
theorem weaken {x : k α} {y : m α} (hc : b ≤ c) (h : Runs c i p x y) : Runs b i p x y := by
  have hbind : Runs b i p (x >>= Pure.pure) (y >>= Pure.pure) := bind hc h fun j a hj ha => pure (le_trans hc hj) ha
  rwa [bind_pure, bind_pure] at hbind

omit [LawfulMonad k] [LawfulMonad m] in
theorem ite {d : Prop} [Decidable d] {x x' : k α} {y y' : m α} (h : d → Runs b i p x y) (h' : ¬d → Runs b i p x' y') :
    Runs b i p (if d then x else x') (if d then y else y') := by
  by_cases hd : d
  · rw [if_pos hd, if_pos hd]; exact h hd
  · rw [if_neg hd, if_neg hd]; exact h' hd

/-- Every value of a loop over a list belongs to its element. -/
theorem mapM {r : Memory → α → β → Prop} (hr : ∀ {i j a b}, i ≤ j → r i a b → r j a b) {f : α → k β} {g : α → m β} :
    ∀ {l : List α} {i : Memory}, (∀ a ∈ l, ∀ j, i ≤ j → Runs j j (fun j => r j a) (f a) (g a)) →
      Runs i i (fun j => List.Forall₂ (r j) l) (l.mapM f) (l.mapM g)
  | [], i, _ => by
    rw [List.mapM_nil, List.mapM_nil]
    exact pure (le_refl i) .nil
  | a :: l, i, h => by
    rw [List.mapM_cons, List.mapM_cons]
    refine bind (le_refl i) (h a List.mem_cons_self i (le_refl i)) fun j b hj hb => ?_
    have hrest : Runs j j (fun j => List.Forall₂ (r j) l) (l.mapM f) (l.mapM g) :=
      mapM (r := r) hr fun c hc k hk => h c (List.mem_cons_of_mem a hc) k (le_trans hj hk)
    exact bind hj hrest fun k bs hk hbs => pure (le_trans hj hk) (.cons (hr hk hb) hbs)

end Beside

/-! ### Flags of new nodes -/

namespace FlagCache
variable {cache : FlagCache} {start : Nat} {i j : Memory} {t : Term}

theorem since_eq (cache : FlagCache) (start : Nat) (t : Term) : cache.since start t =
    if t.isCanonical || t.mark.id < start then cache.get t
    else { t.node.flagsFrom (cache.since start) with isEditable := t.isEditable } := by
  rw [since, Term.fold_eq, ← since]
  split
  · rfl
  · rename_i h
    have hcanonical : t.node.isCanonical = false := by
      rw [Bool.or_eq_true, not_or, Bool.not_eq_true] at h
      exact h.1
    rw [List.map_map, List.any_map, Node.flagsFrom, hcanonical]
    rfl

/-- Flags that are computed from exact ones are exact. -/
theorem since_eq_exactFlags (hij : i ≤ j) (h : j.Has t) : i.cache.since i.next t = t.exactFlags := by
  induction t using Term.induction with
  | h t ih =>
    rw [since_eq]
    split
    · rename_i hold
      rw [← h.get_eq, get, get]
      split
      · rfl
      · rename_i hcanonical
        rw [Bool.or_eq_true, or_iff_right hcanonical, decide_eq_true_iff] at hold
        exact (hij.2 _ hold).1.symm
    · rw [Term.exactFlags_eq, Node.flagsFrom_congr fun c hc => ih c hc (h.child hc)]

/-- So the flags that are recorded with new nodes are exact. -/
theorem record_eq_exactFlags {ts : List Term} (hij : i ≤ j) (h : ∀ t ∈ ts, j.Has t) {c : Term} (ht : t ∈ ts)
    (hc : c ∈ t.nodes) (hcanonical : c.isCanonical = false) :
    i.cache.record i.next ts c.mark.id = c.exactFlags := by
  have hknows := h t ht c hc
  unfold record
  split
  · rename_i hold
    rw [← (hij.2 _ hold).1, hknows.cache_eq hcanonical]
  · split
    · rename_i d hd
      obtain ⟨u, hu, hdu⟩ := List.mem_flatMap.mp (List.mem_of_find?_eq_some hd)
      have hfits := List.find?_some hd
      simp only [Bool.and_eq_true, Bool.not_eq_true', beq_iff_eq] at hfits
      have hdc : d = c := by
        rw [← (h u hu d hdu).node_eq hfits.1, hfits.2, hknows.node_eq hcanonical]
      rw [hdc]
      exact since_eq_exactFlags hij ((h t ht).of_mem_nodes hc)
    · rename_i hnone
      refine absurd (List.find?_eq_none.mp hnone c (List.mem_flatMap.mpr ⟨t, ht, hc⟩)) ?_
      simp [hcanonical]

end FlagCache

namespace Keeping
variable {α : Type} {b c i j : Memory} {R : α → Prop} {t u : Term}

theorem keep_run (parts : α → List Term) (x : Build α) (cache : FlagCache) (n : Nat) :
    keep parts x cache n = match x n with
      | (.ok a, k) => (.ok (a, cache.record n (parts a)), k)
      | (.error c, k) => (.error c, k) := by
  have hkeep : keep parts x cache n =
      ((x >>= fun a => pure (a, cache)) >>= fun e => pure (e.1, e.2.record n (parts e.1))) n := rfl
  rw [hkeep, Build.bind_run, Build.bind_run]
  rcases x n with ⟨_ | _, _⟩ <;> rfl

/-- Nodes that are made without being marked are in memory with their flags. -/
theorem runs_keep {parts : α → List Term} {x : Build α}
    (hx : Leads i (fun j a => (∀ t ∈ parts a, j.Has t) ∧ R a) x) :
    Runs i i (fun j a => (∀ t ∈ parts a, j.Has t) ∧ R a) (keep parts x) x := by
  obtain ⟨j, hij, hnext, hx⟩ := hx
  unfold Runs
  rw [keep_run]
  generalize x i.next = o at hnext hx
  obtain ⟨e | a, n⟩ := o <;> obtain rfl : j.next = n := hnext
  · exact ⟨j, hij, rfl, rfl, fun _ h => by cases h⟩
  obtain ⟨hhas, hR⟩ := hx a rfl
  let j' : Memory := { j with cache := i.cache.record i.next (parts a) }
  have hij' : i ≤ j' := ⟨hij.1, fun id hid => ⟨if_pos hid, (hij.2 id hid).2⟩⟩
  refine ⟨j', hij', rfl, rfl, fun a' ha' => ?_⟩
  cases ha'
  refine ⟨fun t ht c hc => ?_, hR⟩
  have hknows := hhas t ht c hc
  exact ⟨hknows.frozen, hknows.id_lt, hknows.node_eq, FlagCache.record_eq_exactFlags hij hhas ht hc⟩

theorem runs_term {R : Term → Prop} {x : Build Term} (hx : Leads i (fun j t => j.Has t ∧ R t) x) :
    Runs i i (fun j t => j.Has t ∧ R t) (term x) x := by
  have hone : Leads i (fun j t => (∀ u ∈ [t], j.Has u) ∧ R t) x :=
    hx.mono fun j t _ h => ⟨List.forall_mem_singleton.mpr h.1, h.2⟩
  exact (runs_keep hone).mono fun j t _ h => ⟨List.forall_mem_singleton.mp h.1, h.2⟩

/-! ### Marks -/

theorem exactFlags_withEditable (t : Term) (b : Bool) :
    (t.withEditable b).exactFlags = { t.exactFlags with isEditable := b } :=
  Term.exactFlags_of_node rfl

/-- A node that nobody else can reach may be marked, one that was made since `b`. -/
theorem runs_mark (hb : b ≤ i) (ht : i.Has t) (hcanonical : t.isCanonical = false) (hid : b.next ≤ t.mark.id)
    (edit : Bool) :
    Runs b i (fun j u => j.Has u ∧ u = t.withEditable edit) (mark t edit) (pure (t.withEditable edit)) := by
  let u := t.withEditable edit
  have hput : (i.put u u.exactFlags).Has u := Memory.has_put hcanonical (ht.self.id_lt hcanonical) fun c hc =>
    ⟨ht.child hc, ht.lacks_below hcanonical hc⟩
  refine ⟨i.put u u.exactFlags, Memory.le_put (t := u) hb hid _, rfl, ?_, fun a ha => ?_⟩
  · have hflags : u.exactFlags = { i.cache t.mark.id with isEditable := edit } := by
      rw [ht.self.cache_eq hcanonical, exactFlags_withEditable]
    show (Except.ok (u, i.cache.set t.mark.id { i.cache t.mark.id with isEditable := edit }), i.next) = _
    rw [← hflags]
    rfl
  · cases ha
    exact ⟨hput, rfl⟩

theorem runs_makeEditable (hb : b ≤ i) (ht : i.Has t) :
    Runs b i (fun j u => j.Has u ∧ u = t.makeEditable b.next) (makeEditable b.next t)
      (pure (t.makeEditable b.next)) := by
  unfold makeEditable Term.makeEditable
  split
  · rename_i h
    rw [Bool.and_eq_true, Bool.not_eq_true', decide_eq_true_iff] at h
    exact runs_mark hb ht h.1 h.2 true
  · exact .pure hb ⟨ht, rfl⟩

theorem runs_nextId (i : Memory) : Runs i i (fun j n => j = i ∧ n = i.next) (liftM Build.nextId) Build.nextId :=
  ⟨i, le_refl i, rfl, rfl, fun _ ha => by cases ha; exact ⟨rfl, rfl⟩⟩

/-- What comes out of a computation is marked, if it was made on the way. -/
theorem runs_editable {x : Keeping Term} {y : Build Term} (hx : Runs i i Has x y) :
    Runs i i Has (editable x) (do let start ← Build.nextId; return (← y).makeEditable start) := by
  refine .bind (le_refl i) (runs_nextId i) fun j n _ ⟨hj, hn⟩ => ?_
  subst hj hn
  exact .bind (le_refl j) hx fun k t hk ht => (runs_makeEditable hk ht).mono fun _ _ _ h => h.1

end Keeping

end RuleCompiler
