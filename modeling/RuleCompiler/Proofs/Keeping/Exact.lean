import RuleCompiler.Proofs.Keeping.Skips
import RuleCompiler.Proofs.Keeping.Walks
import RuleCompiler.Proofs.Sharing.Editing

/-! # Kept flags are exact

Terms come from constructors and builders, from walks that make nodes again, from freezing, copying and
taking apart, and from editing in place. Whatever is done, the flags that are kept with the nodes of the terms
at hand are exact: a node is marked or edited only where no other of these terms holds it, so there is no
node above it whose flags were computed before. Then walks that skip what the flags tell of nothing in
do what they do without skipping. -/

namespace RuleCompiler

open Build (AgreeFrom Leads)
open Memory (Has Lacks)
open Term (IsNode IsHeap)

/-! ### Work on terms -/

/-- The terms that a list under construction is put together from. -/
def ListParts.terms (p : ListParts) : List Term := p.left ++ (p.base ++ p.right)

/-- The terms that a map under construction is put together from. -/
def MapParts.terms (p : MapParts) : List Term := (p.entries.flatMap fun e => [e.1, e.2]) ++ p.base

/-- The terms that a set under construction is put together from. -/
def SetParts.terms (p : SetParts) : List Term := p.elements ++ p.base

/-- The terms that a group of cells under construction is put together from. -/
def CellParts.terms (p : CellParts) : List Term := p.cells.map (·.content)

namespace Keeping

/-- The constructors, and what builders do, over nodes of the terms `ts`. -/
inductive Builds (ts : List Term) : {α : Type} → (α → List Term) → Build α → Prop where
  | new {m : Node Term} (h : ∀ c ∈ m.children, IsNode ts c) : Builds ts ([·]) (Term.new m)
  | addToSequence {p : SequenceParts} {t : Term} (hp : ∀ c ∈ p.items, IsNode ts c) (ht : IsNode ts t) :
      Builds ts (·.items) (p.add t)
  | sequence {p : SequenceParts} (hp : ∀ c ∈ p.items, IsNode ts c) : Builds ts ([·]) p.build
  | addToList {p : ListParts} {t : Term} (hp : ∀ c ∈ p.terms, IsNode ts c) (ht : IsNode ts t) :
      Builds ts ListParts.terms (p.concat t)
  | list {p : ListParts} (hp : ∀ c ∈ p.terms, IsNode ts c) : Builds ts ([·]) p.build
  | map {p : MapParts} (hp : ∀ c ∈ p.terms, IsNode ts c) : Builds ts ([·]) p.build
  | set {p : SetParts} (hp : ∀ c ∈ p.terms, IsNode ts c) : Builds ts ([·]) p.build
  | addToCells {p : CellParts} {t : Term} (hp : ∀ c ∈ p.terms, IsNode ts c) (ht : IsNode ts t) :
      Builds ts CellParts.terms (p.concat t)
  | cells {p : CellParts} (hp : ∀ c ∈ p.terms, IsNode ts c) : Builds ts ([·]) p.build

/-- Computations over the terms `ts` with flags and without, in step: one thing after the other, builders,
walks, and copies that are frozen or may be edited. What they give has the terms `parts`. -/
inductive Follows : {α : Type} → List Term → (α → List Term) → Keeping α → Build α → Prop where
  | pure {α : Type} {ts : List Term} {parts : α → List Term} {a : α} (h : ∀ u ∈ parts a, IsNode ts u) :
      Follows ts parts (Pure.pure a) (Pure.pure a)
  | throw {α : Type} {ts : List Term} {parts : α → List Term} (c : Clash) :
      Follows ts parts (MonadExcept.throw c) (MonadExcept.throw c)
  | bind {α β : Type} {ts : List Term} {parts : α → List Term} {parts' : β → List Term} {x : Keeping α} {y : Build α}
      {f : α → Keeping β} {g : α → Build β} (h : Follows ts parts x y)
      (hf : ∀ a, Follows (parts a ++ ts) parts' (f a) (g a)) : Follows ts parts' (x >>= f) (y >>= g)
  | build {α : Type} {ts : List Term} {parts : α → List Term} {x : Build α} (h : Builds ts parts x) :
      Follows ts parts (keep parts x) x
  /-- What is built is marked as editable, if it is new. -/
  | editable {ts : List Term} {x : Keeping Term} {y : Build Term} (h : Follows ts ([·]) x y) :
      Follows ts ([·]) (editable x) (do let start ← Build.nextId; return (← y).makeEditable start)
  /-- The children of a node are replaced, and what stands for its frames. -/
  | update {ts : List Term} {t : Term} {fx gx : Term → Keeping Term} {fy gy : Term → Build Term} (ht : IsNode ts t)
      (hf : ∀ c ∈ t.children, Follows ts ([·]) (fx c) (fy c))
      (hg : ∀ u, u.isVar → Follows (u :: ts) ([·]) (gx u) (gy u)) :
      Follows ts ([·]) (update t (t.children.map fx) gx) (t.update (t.children.map fy) gy)
  /-- The same with a state that has no terms in it. -/
  | updateState {σ : Type} {ts : List Term} {t : Term} {fx gx : Term → StateT σ Keeping Term}
      {fy gy : Term → StateT σ Build Term} (ht : IsNode ts t)
      (hf : ∀ c ∈ t.children, ∀ s, Follows ts (fun e => [e.1]) (fx c s) (fy c s))
      (hg : ∀ u, u.isVar → ∀ s, Follows (u :: ts) (fun e => [e.1]) (gx u s) (gy u s)) (s : σ) :
      Follows ts (fun e => [e.1]) (update t (t.children.map fx) gx s) (t.update (t.children.map fy) gy s)
  | deepCopy {ts : List Term} {t : Term} (ht : IsNode ts t) : Follows ts ([·]) (deepCopy t) t.deepCopy
  | freeze {ts : List Term} {t : Term} (ht : IsNode ts t) : Follows ts ([·]) (freeze t) t.freeze
  | unshareAll {ts us : List Term} (hus : ∀ u ∈ us, IsNode ts u) : Follows ts id (unshareAll us) (Term.unshareAll us)

variable {ts us : List Term} {t u c : Term} {i j : Memory} {α : Type} {parts : α → List Term}

theorem Builds.leads {y : Build α} (h : Builds ts parts y) (hts : ∀ t ∈ ts, i.Has t) :
    Leads i (fun j a => ∀ u ∈ parts a, j.Has u) y := by
  have hk := Memory.keeps_has i
  have hall {us : List Term} (hus : ∀ c ∈ us, IsNode ts c) : ∀ c ∈ us, i.Has c :=
    fun c hc => .of_isNode hts (hus c hc)
  have hone {y : Build Term} (h : Leads i Has y) : Leads i (fun j t => ∀ u ∈ [t], j.Has u) y :=
    h.mono fun _ _ _ h => List.forall_mem_singleton.mpr h
  cases h with
  | new h => exact hone (Memory.leads_new (hall h))
  | addToSequence hp ht =>
    exact (SequenceParts.leads_add hk (le_refl i) ⟨hall hp, fun _ _ => trivial⟩ (.of_isNode hts ht)).mono
      fun _ _ _ h => h.items
  | sequence hp => exact hone (SequenceParts.leads_build hk (le_refl i) ⟨hall hp, fun _ _ => trivial⟩)
  | addToList hp ht =>
    exact (ListParts.leads_concat hk (le_refl i) (ListParts.holds_iff.mpr (hall hp)) (.of_isNode hts ht)).mono
      fun _ _ _ h => ListParts.holds_iff.mp h
  | list hp => exact hone (ListParts.leads_build hk (le_refl i) (ListParts.holds_iff.mpr (hall hp)))
  | map hp => exact hone (MapParts.leads_build hk (le_refl i) (MapParts.holds_iff.mpr (hall hp)))
  | set hp => exact hone (SetParts.leads_build hk (le_refl i) (SetParts.holds_iff.mpr (hall hp)))
  | addToCells hp ht =>
    have hcontents := List.forall_mem_map.mp (hall hp)
    exact (CellParts.leads_concat hk ⟨hcontents, fun _ _ => trivial⟩ (.of_isNode hts ht)).mono
      fun _ _ _ h => List.forall_mem_map.mpr h.contents
  | cells hp =>
    have hcontents := List.forall_mem_map.mp (hall hp)
    exact hone (CellParts.leads_build hk (le_refl i) ⟨hcontents, fun _ _ => trivial⟩)

/-- Whatever is done to terms in memory, what comes of it is in memory. -/
theorem Follows.runs {x : Keeping α} {y : Build α} (h : Follows ts parts x y) :
    ∀ {i : Memory}, (∀ t ∈ ts, i.Has t) → Runs i i (fun j a => ∀ u ∈ parts a, j.Has u) x y := by
  have hone {i j : Memory} {x : Keeping Term} {y : Build Term} (h : Runs i j Has x y) :
      Runs i j (fun j t => ∀ u ∈ [t], j.Has u) x y := h.mono fun _ _ _ h => List.forall_mem_singleton.mpr h
  induction h with
  | pure h => exact fun {i} hts => .pure (le_refl i) fun u hu => .of_isNode hts (h u hu)
  | throw c => exact fun {i} _ => ⟨i, le_refl i, rfl, rfl, fun _ h => by cases h⟩
  | bind _ _ ih ihf =>
    intro i hts
    refine .bind (le_refl i) (ih hts) fun j a hij ha => ?_
    refine Beside.weaken (k := Keeping) (m := Build) hij (ihf a fun u hu => ?_)
    rcases List.mem_append.mp hu with hu | hu
    · exact ha u hu
    · exact (hts u hu).mono hij
  | build h =>
    intro i hts
    have hleads := (h.leads hts).mono fun _ _ _ hu => And.intro hu trivial
    exact (runs_keep hleads).mono fun _ _ _ h => h.1
  | editable _ ih =>
    exact fun hts => hone (runs_editable ((ih hts).mono fun _ _ _ h => List.forall_mem_singleton.mp h))
  | update ht _ _ ihf ihg =>
    intro i hts
    refine hone (runs_update_has (k := Keeping) (m := Build) (.of_isNode hts ht) (fun c hc j hj => ?_)
      fun u j hj hvar hu => ?_)
    · exact (ihf c hc fun t ht => (hts t ht).mono hj).mono fun _ _ _ h => List.forall_mem_singleton.mp h
    · have hknown : ∀ t ∈ u :: _, j.Has t := List.forall_mem_cons.mpr ⟨hu, fun t ht => (hts t ht).mono hj⟩
      exact (ihg u hvar hknown).mono fun _ _ _ h => List.forall_mem_singleton.mp h
  | @updateState σ ts t fx gx fy gy ht _ _ s ihf ihg =>
    intro i hts
    have hupdate : Beside.Runs i i Has (Keeping.update t (t.children.map fx) gx)
        (t.update (t.children.map fy) gy) := by
      refine runs_update_has (.of_isNode hts ht) (fun c hc j hj s => ?_) fun u j hj hvar hu s => ?_
      · exact (ihf c hc s fun t ht => (hts t ht).mono hj).mono fun _ _ _ h => List.forall_mem_singleton.mp h
      · have hknown : ∀ t ∈ u :: ts, j.Has t := List.forall_mem_cons.mpr ⟨hu, fun t ht => (hts t ht).mono hj⟩
        exact (ihg u hvar s hknown).mono fun _ _ _ h => List.forall_mem_singleton.mp h
    exact (hupdate s).mono fun _ _ _ h => List.forall_mem_singleton.mpr h
  | deepCopy ht => exact fun hts => hone (runs_deepCopy (.of_isNode hts ht))
  | freeze ht => exact fun hts => hone ((runs_freeze (.of_isNode hts ht)).mono fun _ _ _ h => h.1)
  | unshareAll hus => exact fun hts => runs_unshareAll fun u hu => .of_isNode hts (hus u hu)

end Keeping

/-! ### Terms that come to be -/

namespace Memory
variable {n : Nat} {cache : FlagCache} {ts : List Term} {i : Memory}

/-- Terms in memory are told apart by their numbers, and their flags are exact. -/
theorem isExact_of_has (h : ∀ t ∈ ts, i.Has t) : IsHeap i.next ts ∧ i.cache.IsExact ts := by
  have hknows {c : Term} (hc : IsNode ts c) : i.Knows c := (Has.of_isNode h hc).self
  refine ⟨⟨fun hc => (hknows hc).frozen, fun hc => (hknows hc).id_lt, fun hc hd hcc hdc hid => ?_⟩, fun c hc => ?_⟩
  · rw [← (hknows hc).node_eq hcc, hid, (hknows hd).node_eq hdc]
  · exact (Has.of_isNode h hc).get_eq

/-- Terms that are told apart by their numbers, with flags that are exact, are those of a memory. -/
theorem exists_has (hheap : IsHeap n ts) (hexact : cache.IsExact ts) :
    ∃ i : Memory, i.next = n ∧ i.cache = cache ∧ ∀ t ∈ ts, i.Has t := by
  have hnode (id : Nat) : ∃ c : Term, ∀ d, IsNode ts d → d.isCanonical = false → d.mark.id = id → c = d := by
    by_cases h : ∃ c, IsNode ts c ∧ c.isCanonical = false ∧ c.mark.id = id
    · obtain ⟨c, hc, hcc, hid⟩ := h
      exact ⟨c, fun d hd hdc hdid => hheap.eq_of_id hc hd hcc hdc (hid.trans hdid.symm)⟩
    · exact ⟨Term.canonical .hole, fun d hd hdc hid => (h ⟨d, hd, hdc, hid⟩).elim⟩
  choose node hnode using hnode
  refine ⟨⟨n, cache, node⟩, rfl, rfl, fun t ht c hc => ?_⟩
  have hc : IsNode ts c := Term.isNode_iff_mem_nodes.mpr ⟨t, ht, hc⟩
  refine ⟨hheap.frozen hc, hheap.id_lt hc, fun hcanonical => hnode _ c hc hcanonical rfl, fun hcanonical => ?_⟩
  have hget := hexact c hc
  rwa [FlagCache.get, if_neg (by rw [hcanonical]; exact Bool.false_ne_true)] at hget

end Memory

namespace Keeping.Follows
variable {n n' : Nat} {cache cache' : FlagCache} {ts : List Term} {α : Type} {parts : α → List Term} {x : Keeping α}
  {y : Build α} {a : α}

/-- Keeping flags changes nothing in what is done, though these are what copies and frozen terms go by. -/
theorem run_eq (h : Follows ts parts x y) (hheap : IsHeap n ts) (hexact : cache.IsExact ts) :
    n ≤ (x cache n).2 ∧ y n = ((x cache n).1.map Prod.fst, (x cache n).2) := by
  obtain ⟨i, rfl, rfl, hts⟩ := Memory.exists_has hheap hexact
  obtain ⟨j, hij, hnext, hrun, -⟩ := h.runs hts
  rw [hrun, ← hnext]
  refine ⟨hnext ▸ hij.1, ?_⟩
  rcases y i.next with ⟨_ | _, _⟩ <;> rfl

/-- What is done to terms whose flags are exact gives terms whose flags are exact, and leaves those of the terms
as they are. -/
theorem isExact (h : Follows ts parts x y) (hheap : IsHeap n ts) (hexact : cache.IsExact ts)
    (hrun : x cache n = (.ok (a, cache'), n')) : IsHeap n' (parts a ++ ts) ∧ cache'.IsExact (parts a ++ ts) := by
  obtain ⟨i, rfl, rfl, hts⟩ := Memory.exists_has hheap hexact
  obtain ⟨j, hij, -, hstep, ha⟩ := h.runs hts
  rw [hstep] at hrun
  generalize y i.next = o at hrun ha
  obtain ⟨_ | _, _⟩ := o <;> cases hrun
  refine Memory.isExact_of_has fun t ht => ?_
  rcases List.mem_append.mp ht with ht | ht
  · exact ha a rfl t ht
  · exact (hts t ht).mono hij

end Keeping.Follows

/-- A node can be given other contents, as long as these are parts of terms that do not hold it. -/
theorem Term.Replaces.of_free {n : Nat} {ts : List Term} {t : Term} {m : Node Term}
    (hheap : IsHeap n (t :: (t.children ++ ts))) (hedit : t.isEditable) (hm : m.isCanonical = false)
    (hfree : ∀ u ∈ ts, u.holds t.mark.id = false) (hc : ∀ c ∈ m.children, IsNode (t.children ++ ts) c) : Term.Replaces (t.children ++ ts) t m where
  isCanonical := hheap.isCanonical (isNode_of_mem List.mem_cons_self) hedit
  isCanonical' := hm
  children hcm := .inr (hc _ hcm)
  id_ne {c} hc hcanonical hid := by
    have ht : IsNode (t :: (t.children ++ ts)) t := isNode_of_mem List.mem_cons_self
    have hct : c = t := hheap.eq_of_id (isNode_cons.mpr (.inr hc)) ht hcanonical (hheap.isCanonical ht hedit) hid
    subst hct
    rcases isNode_append.mp hc with hc | hc
    · exact not_isNode_children c hc
    · exact id_ne_of_not_holds hfree hc hcanonical rfl

namespace FlagCache

/-- By the time the next node gets the number `n`, there are the terms `ts`, which nobody else holds parts of, and
the flags `cache` are kept. -/
inductive Arises : Nat → FlagCache → List Term → Prop where
  | start : Arises 0 (fun _ => {}) []
  | work {n n' : Nat} {cache cache' : FlagCache} {ts : List Term} {α : Type} {parts : α → List Term} {x : Keeping α}
      {y : Build α} {a : α} (h : Arises n cache ts) (hx : Keeping.Follows ts parts x y)
      (hrun : x cache n = (.ok (a, cache'), n')) : Arises n' cache' (parts a ++ ts)
  /-- What was made before a clash is lost. -/
  | clash {n n' : Nat} {cache : FlagCache} {ts : List Term} {α : Type} {parts : α → List Term} {x : Keeping α}
      {y : Build α} {c : Clash} (h : Arises n cache ts) (hx : Keeping.Follows ts parts x y)
      (hrun : x cache n = (.error c, n')) : Arises n' cache ts
  /-- Terms may be dropped, and parts of them be held on their own. -/
  | hold {n : Nat} {cache : FlagCache} {ts us : List Term} (h : Arises n cache ts) (hus : ∀ u ∈ us, IsNode ts u) :
      Arises n cache us
  /-- An editable node that no other term holds is given other contents, and its flags are computed again. -/
  | edit {n : Nat} {cache : FlagCache} {ts : List Term} {t : Term} {m : Node Term} (h : Arises n cache (t :: ts))
      (hedit : t.isEditable) (hfree : ∀ u ∈ ts, u.holds t.mark.id = false) (hm : m.isCanonical = false)
      (hc : ∀ c ∈ m.children, IsNode (t.children ++ ts) c) :
      Arises n (cache.set t.mark.id { m.flagsFrom cache.get with isEditable := true }) ({ t with node := m } :: ts)

namespace Arises
variable {n : Nat} {cache : FlagCache} {ts : List Term} {t : Term}

/-- Whatever was done, the terms are told apart by their numbers, and their flags are exact. -/
theorem isExact (h : Arises n cache ts) : IsHeap n ts ∧ cache.IsExact ts := by
  induction h with
  | start =>
    let nothing : Memory := ⟨0, fun _ => {}, fun _ => Term.canonical .hole⟩
    exact Memory.isExact_of_has (i := nothing) (List.forall_mem_nil _)
  | work _ hx hrun ih => exact hx.isExact ih.1 ih.2 hrun
  | clash _ hx hrun ih =>
    have hle := (hx.run_eq ih.1 ih.2).1
    rw [hrun] at hle
    exact ⟨ih.1.of_le hle, ih.2⟩
  | @hold n cache ts us _ hus ih =>
    have hsub {c : Term} (hc : IsNode us c) : IsNode ts c := by
      obtain ⟨u, hu, hc⟩ := Term.isNode_iff.mp hc
      exact (hus u hu).trans hc
    exact ⟨ih.1.mono hsub, fun c hc => ih.2 c (hsub hc)⟩
  | @edit n cache ts t m _ hedit hfree hm hc ih =>
    -- its own parts may be put elsewhere below it
    have hparts {c : Term} (hc : IsNode (t :: (t.children ++ ts)) c) : IsNode (t :: ts) c := by
      rcases Term.isNode_cons_iff.mp hc with rfl | hc | hc
      · exact Term.isNode_of_mem List.mem_cons_self
      · exact Term.isNode_cons_iff.mpr (.inr (.inl hc))
      · exact Term.isNode_cons_iff.mpr (.inr (Term.isNode_append.mp hc))
    have hheap := ih.1.mono hparts
    have hreplaces : Term.Replaces (t.children ++ ts) t m := .of_free hheap hedit hm hfree hc
    have hexact := FlagCache.IsExact.replace (fun c hc => ih.2 c (hparts hc)) hheap hreplaces
    rw [hedit] at hexact
    have hfewer {c : Term} (hc : IsNode ({ t with node := m } :: ts) c) :
        IsNode ({ t with node := m } :: (t.children ++ ts)) c := by
      rw [Term.isNode_cons_iff] at hc ⊢
      exact hc.imp_right fun hc => hc.imp_right fun hc => Term.isNode_append.mpr (.inr hc)
    exact ⟨(hreplaces.isHeap hheap).mono hfewer, fun c hc => hexact c (hfewer hc)⟩

/-- A call that edits a node in place is one of the things that may be done, also where it is refused. -/
theorem editInPlace {results : Option (List EditResult)} {t' : Term} {cache' : FlagCache}
    (h : Arises n cache (t :: ts)) (edits : List Edit) (hparts : ∀ p ∈ edits.flatMap Edit.parts, IsNode (t :: ts) p)
    (hrun : t.editInPlace cache ts edits = (results, t', cache')) : Arises n cache' (t' :: ts) := by
  let call : EditCall := ⟨ts, edits⟩
  cases hcall : call.isAccepted t with
  | false =>
    rw [EditCall.editInPlace_of_refused hcall] at hrun
    cases hrun
    exact h
  | true =>
    rw [EditCall.editInPlace_of_accepted hcall] at hrun
    cases hrun
    rw [EditCall.isAccepted, Bool.and_eq_true, Bool.not_eq_true', List.any_eq_false] at hcall
    obtain ⟨hedit, hfree⟩ := hcall
    have hcanonical := h.isExact.1.isCanonical (Term.isNode_of_mem List.mem_cons_self) hedit
    refine h.edit hedit (fun u hu => by simpa using hfree u (List.mem_append_left _ hu))
      ((Edit.isCanonical_runAll edits t.node).trans hcanonical) fun c hc => ?_
    rcases Edit.children_runAll edits hc with hc | hpart
    · exact Term.isNode_of_mem (List.mem_append_left ts hc)
    · have hself : c ≠ t := by
        rintro rfl
        refine hfree c (List.mem_append_right ts hpart) ?_
        have hown : (!c.isCanonical && c.mark.id == c.mark.id) = true := by rw [hcanonical, beq_self_eq_true]; rfl
        exact Term.anyNode_of_isNode (Term.isNode_of_mem List.mem_cons_self) hown
      exact Term.isNode_append.mpr ((Term.isNode_cons_iff.mp (hparts c hpart)).resolve_left hself)

end Arises

/-- What the flags tell of a term is so, and walks that go by them come to the same as those that go everywhere.
For a side of a term other nodes may be made, as parts without rewrites are not walked through: from whatever
number on nodes are made, it is the same term, or it is a clash both ways. -/
structure Tells (n : Nat) (cache : FlagCache) (t : Term) : Prop where
  occurring (k : Flags.Kind) : k.isTold (cache.get t).occurring ↔ ∃ u ∈ t.subterms, k.fits u
  containsEditable : (cache.get t).containsEditable ↔ ∃ u, IsNode t.children u ∧ u.isEditable
  isEditable : (cache.get t).isEditable = t.isEditable
  vars : t.varsKept cache = t.vars
  substitute (value : Var → Option Term) : t.substituteKept cache value = t.substitute value
  leftSide : AgreeFrom n (fun u v : Term => u == v) (t.sideKept cache .left) t.leftSide
  rightSide : AgreeFrom n (fun u v : Term => u == v) (t.sideKept cache .right) t.rightSide

theorem tells_of_isExact {n : Nat} {cache : FlagCache} {t : Term} (h : cache.IsExact [t]) (ht : t.IsOld n) :
    Tells n cache t := by
  have hself := Term.isExact_self h
  refine ⟨fun k => ?_, ?_, ?_, Term.varsKept_eq_vars h, Term.substituteKept_eq_substitute h,
    Term.agree_side h ht .left, Term.agree_side h ht .right⟩
  · rw [hself, ← Term.anyNode_iff, ← Term.isTold_flags]
    rfl
  · rw [hself, ← Term.containsEditable_iff]
    rfl
  · rw [hself]
    rfl

/-- However terms come to be, the flags that are kept with the nodes tell what is so, and nothing that is done goes
otherwise for going by them. -/
theorem Arises.tells {n : Nat} {cache : FlagCache} {ts : List Term} (h : Arises n cache ts) :
    (∀ t, IsNode ts t → Tells n cache t) ∧
      ∀ {α : Type} {parts : α → List Term} {x : Keeping α} {y : Build α}, Keeping.Follows ts parts x y →
        y n = ((x cache n).1.map Prod.fst, (x cache n).2) := by
  obtain ⟨hheap, hexact⟩ := h.isExact
  refine ⟨fun t ht => tells_of_isExact (fun c hc => hexact c (ht.trans hc)) fun c hc hcanonical => ?_,
    fun hx => (hx.run_eq hheap hexact).2⟩
  exact hheap.id_lt (ht.trans (Term.mem_nodes_iff.mp hc)) hcanonical

/-- A map is made that may be edited, a variable is put into it, and by its flags it is frozen. -/
theorem tells_edited : ∃ (n : Nat) (cache : FlagCache) (t : Term) (ts : List Term), Arises n cache (t :: ts) ∧
    t.isEditable ∧ t.varsKept cache = [⟨"X", .k, 0⟩] ∧ Tells n cache t ∧
    t.freeze n = ((Keeping.freeze t cache n).1.map Prod.fst, (Keeping.freeze t cache n).2) := by
  let key : Term := .token .int "1"
  let x : Term := ⟨⟨0, false⟩, .var ⟨"X", .k, 0⟩⟩
  have hvar := Arises.work .start (.build (Keeping.Builds.new (m := .var ⟨"X", .k, 0⟩) fun _ hc => by cases hc)) rfl
  have hkey := Arises.work hvar (.build (Keeping.Builds.new (m := .token .int "1") fun _ hc => by cases hc)) rfl
  have hmap := Arises.work hkey
    (.editable (.build (Keeping.Builds.map (p := { ops := .map }) fun _ hc => by cases hc))) rfl
  have hput := hmap.editInPlace [.put key x] (fun c hc => Term.isNode_of_mem (List.mem_cons_of_mem _ hc)) rfl
  exact ⟨_, _, _, _, hput, rfl, rfl, hput.tells.1 _ (Term.isNode_of_mem List.mem_cons_self),
    hput.tells.2 (.freeze (Term.isNode_of_mem List.mem_cons_self))⟩

end FlagCache

end RuleCompiler
