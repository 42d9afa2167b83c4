import RuleCompiler.Proofs.Sharing.Positions
import RuleCompiler.Term.FlagCache

/-! # Kept flags are exact

The flags that are kept with a node are exact if they tell what a walk over the term finds. They stay so
when a node with a single owner is given other contents and its flags are computed again. -/

namespace RuleCompiler

open Term (IsNode IsHeap)

namespace Term

variable {t u c : Term} {ts us : List Term} {n : Nat}

/-- What a walk over the term finds. -/
def exactFlags (t : Term) : NodeFlags := ⟨t.flags, t.containsEditable, t.isCanonical, t.isEditable⟩

theorem exactFlags_eq (t : Term) :
    t.exactFlags = { t.node.flagsFrom exactFlags with isEditable := t.isEditable } := by
  have hflags : t.flags = (t.children.map flags).foldl Flags.or (Flags.ofNode t.node) := by
    rw [flags, fold_eq]
  have hbelow : t.containsEditable = t.children.any fun c => c.isEditable || c.containsEditable := by
    unfold containsEditable
    exact congrArg (List.any t.children) (funext touchesEditable_eq)
  rw [exactFlags, hflags, hbelow]
  rfl

/-- Apart from being editable, terms with the same contents have the same flags. -/
theorem exactFlags_of_node (h : t.node = u.node) :
    t.exactFlags = { u.exactFlags with isEditable := t.isEditable } := by
  rw [exactFlags_eq, exactFlags_eq u, h]

theorem isNode_append : IsNode (ts ++ us) c ↔ IsNode ts c ∨ IsNode us c := by
  rw [isNode_iff, isNode_iff, isNode_iff]
  simp only [List.mem_append, or_and_right, exists_or]

theorem anyNode_of_isNode {p : Term → Bool} (h : IsNode [t] c) (hp : p c) : t.anyNode p := by
  induction t using Term.induction with
  | h t ih =>
    rw [anyNode_eq]
    rcases isNode_single.mp h with rfl | h
    · simp [hp]
    · obtain ⟨d, hd, h⟩ := isNode_iff.mp h
      have hany : t.children.any (anyNode p) := List.any_eq_true.mpr ⟨d, hd, ih d hd h⟩
      simp [hany]

/-- A node of terms that do not hold the number has another one. -/
theorem id_ne_of_not_holds (h : ∀ u ∈ us, u.holds n = false) (hc : IsNode us c)
    (hcanonical : c.isCanonical = false) : c.mark.id ≠ n := by
  rintro rfl
  obtain ⟨u, hu, hc⟩ := isNode_iff.mp hc
  have hholds : u.holds c.mark.id := anyNode_of_isNode hc (by rw [hcanonical, beq_self_eq_true]; rfl)
  rw [h u hu] at hholds
  cases hholds

end Term

theorem Node.flagsFrom_congr {n : Node Term} {f g : Term → NodeFlags} (h : ∀ c ∈ n.children, f c = g c) :
    n.flagsFrom f = n.flagsFrom g := by
  have hmap : (n.children.map fun c => (f c).occurring) = n.children.map fun c => (g c).occurring :=
    List.map_congr_left fun c hc => by rw [h c hc]
  have hany : (n.children.any fun c => (f c).isEditable || (f c).containsEditable) =
      n.children.any fun c => (g c).isEditable || (g c).containsEditable := by
    rw [Bool.eq_iff_iff, List.any_eq_true, List.any_eq_true]
    exact exists_congr fun c => and_congr_right fun hc => by rw [h c hc]
  rw [flagsFrom, flagsFrom, hmap, hany]

/-! ### Other contents -/

/-- A node of terms can be given other contents: nobody else holds it, and what it is given are its own
children and nodes of the other terms. -/
structure Term.Replaces (us : List Term) (t : Term) (m : Node Term) : Prop where
  isCanonical : t.isCanonical = false
  isCanonical' : m.isCanonical = false
  children {c : Term} (hc : c ∈ m.children) : c ∈ t.children ∨ IsNode us c
  id_ne {c : Term} (hc : IsNode us c) (hcanonical : c.isCanonical = false) : c.mark.id ≠ t.mark.id

namespace Term.Replaces

variable {t c : Term} {us : List Term} {m : Node Term} {k : Nat}

theorem isNode_of_child (h : Replaces us t m) (hc : c ∈ m.children) : IsNode (t.children ++ us) c :=
  isNode_append.mpr ((h.children hc).imp_left isNode_of_mem)

/-- The nodes afterwards are the node with its new contents and nodes from before. -/
theorem isNode (h : Replaces us t m) (hc : IsNode ({ t with node := m } :: us) c) :
    c = { t with node := m } ∨ IsNode (t.children ++ us) c := by
  rcases isNode_cons_iff.mp hc with rfl | hc | hc
  · exact .inl rfl
  · obtain ⟨d, hd, hc⟩ := isNode_iff.mp hc
    exact .inr ((h.isNode_of_child hd).trans hc)
  · exact .inr (isNode_append.mpr (.inr hc))

theorem isNode_before (hc : IsNode (t.children ++ us) c) : IsNode (t :: us) c :=
  isNode_cons_iff.mpr (.inr (isNode_append.mp hc))

/-- None of the other nodes has the number of the node. -/
theorem id_ne_before (h : Replaces us t m) (hheap : IsHeap k (t :: us)) (hc : IsNode (t.children ++ us) c)
    (hcanonical : c.isCanonical = false) : c.mark.id ≠ t.mark.id := by
  intro hid
  have ht : IsNode (t :: us) t := isNode_of_mem List.mem_cons_self
  have hct : c = t := hheap.eq_of_id (isNode_before hc) ht hcanonical h.isCanonical hid
  subst hct
  rcases isNode_append.mp hc with hc | hc
  · exact not_isNode_children c hc
  · exact h.id_ne hc hcanonical rfl

theorem isHeap (h : Replaces us t m) (hheap : IsHeap k (t :: us)) : IsHeap k ({ t with node := m } :: us) where
  frozen {c} hc hcanonical := by
    rcases h.isNode hc with rfl | hc
    · exact absurd (h.isCanonical'.symm.trans hcanonical) Bool.false_ne_true
    · exact hheap.frozen (isNode_before hc) hcanonical
  id_lt {c} hc hcanonical := by
    rcases h.isNode hc with rfl | hc
    · exact hheap.id_lt (t := t) (isNode_of_mem List.mem_cons_self) h.isCanonical
    · exact hheap.id_lt (isNode_before hc) hcanonical
  eq_of_id {c d} hc hd hcanonical hdcanonical hid := by
    rcases h.isNode hc with rfl | hc <;> rcases h.isNode hd with rfl | hd
    · rfl
    · exact absurd hid.symm (h.id_ne_before hheap hd hdcanonical)
    · exact absurd hid (h.id_ne_before hheap hc hcanonical)
    · exact hheap.eq_of_id (isNode_before hc) (isNode_before hd) hcanonical hdcanonical hid

end Term.Replaces

namespace FlagCache

variable {cache : FlagCache} {t c : Term} {us : List Term} {m : Node Term} {k : Nat}

/-- The flags that are kept for the nodes of the terms are exact. -/
def IsExact (cache : FlagCache) (ts : List Term) : Prop := ∀ c, IsNode ts c → cache.get c = c.exactFlags

theorem get_set_of_ne {id : Nat} {flags : NodeFlags} (h : c.isCanonical = false → c.mark.id ≠ id) :
    (cache.set id flags).get c = cache.get c := by
  unfold get
  split
  · rfl
  · rename_i hc
    rw [set, if_neg (h (by simpa using hc))]

/-- The flags of a node with new contents, computed from those that are kept, are exact again. -/
theorem IsExact.replace (hcache : cache.IsExact (t :: us)) (hheap : IsHeap k (t :: us))
    (h : Term.Replaces us t m) :
    (cache.set t.mark.id { m.flagsFrom cache.get with isEditable := t.isEditable }).IsExact
      ({ t with node := m } :: us) := by
  have hbefore {c : Term} (hc : IsNode (t.children ++ us) c) : cache.get c = c.exactFlags :=
    hcache c (Term.Replaces.isNode_before hc)
  intro c hc
  rcases h.isNode hc with rfl | hc
  · have hchildren : m.flagsFrom cache.get = m.flagsFrom Term.exactFlags :=
      Node.flagsFrom_congr fun d hd => hbefore (h.isNode_of_child hd)
    rw [Term.exactFlags_eq, ← hchildren, get, if_neg]
    · exact if_pos rfl
    · rw [Term.isCanonical, h.isCanonical']
      exact Bool.false_ne_true
  · rw [get_set_of_ne (h.id_ne_before hheap hc), hbefore hc]

end FlagCache

end RuleCompiler
