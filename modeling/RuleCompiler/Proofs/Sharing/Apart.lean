import RuleCompiler.Proofs.Sharing.Positions
import RuleCompiler.Proofs.Sharing.Rebuild

/-! # Terms apart

What taking terms apart leaves: equal terms in which every editable node has one place, and in which an
editable node is still the same wherever everything editable in it is met for the first time. The
relation is put together as a walk goes, from child to child and from children to their node. -/

namespace RuleCompiler.Term

variable {t u c d : Term} {ts us cs ds : List Term} {p : List Nat} {s s' s₁ : List Nat} {N n m k : Nat}

/-- Every editable node of what stands at `p` is met there for the first time, and it is not among those
with the numbers `s`. -/
def IsFirst (s : List Nat) (ts : List Term) (p : List Nat) : Prop :=
  ∀ q t, nodeAt? ts (p ++ q) = some t → t.isEditable → t.mark.id ∉ s ∧
    ∀ r < p ++ q, ∀ u, nodeAt? ts r = some u → u.isEditable → u.mark.id ≠ t.mark.id

/-- The terms `us` are the terms `ts` taken apart, where the numbers `s` are those of the editable nodes
met before, and new nodes are numbered from `n` to `k`. -/
structure Unshared (s : List Nat) (n k : Nat) (ts us : List Term) : Prop where
  renews : List.Forall₂ Renews us ts
  frozen {u : Term} (hu : IsNode us u) (hc : u.isCanonical) : u.isEditable = false
  /-- A node is new, or it has the mark of an old one, which is not met again if it is editable. -/
  origin {u : Term} (hu : IsNode us u) (hc : u.isCanonical = false) : Fresh n k u ∨
    ∃ t, IsNode ts t ∧ t.isCanonical = false ∧ t.mark = u.mark ∧ (t.isEditable → t.mark.id ∉ s)
  single {p q : List Nat} {u v : Term} (hu : nodeAt? us p = some u) (hv : nodeAt? us q = some v)
    (hedit : u.isEditable) (hc : v.isCanonical = false) (h : u.mark.id = v.mark.id) : p = q
  kept {p : List Nat} {t : Term} (ht : nodeAt? ts p = some t) (hp : p.length = 1 ∨ t.isEditable)
    (hfirst : IsFirst s ts p) : nodeAt? us p = some t

/-- The numbers `s₁` are the numbers `s` and that of the node, if it is editable. -/
def MeetsTop (s : List Nat) (t : Term) (s₁ : List Nat) : Prop :=
  ∀ i, i ∈ s₁ ↔ i ∈ s ∨ t.isEditable ∧ t.mark.id = i

/-- The numbers `s'` are the numbers `s` and those of the editable nodes of the terms. -/
def Meets (s : List Nat) (ts : List Term) (s' : List Nat) : Prop :=
  ∀ i, i ∈ s' ↔ i ∈ s ∨ ∃ t, IsNode ts t ∧ t.isEditable ∧ t.mark.id = i

/-! ### First positions -/

theorem IsFirst.append (h : IsFirst s ts p) (q : List Nat) : IsFirst s ts (p ++ q) := by
  intro r t ht
  rw [List.append_assoc] at ht ⊢
  exact h (q ++ r) t ht

theorem IsFirst.head (h : IsFirst s (t :: ts) (0 :: p)) : IsFirst s [t] (0 :: p) := by
  intro q u hu hedit
  obtain ⟨hnew, hbefore⟩ := h q u hu hedit
  refine ⟨hnew, fun r hr v hv => ?_⟩
  rcases nodeAt?_cons hv with ⟨r, rfl, hv⟩ | ⟨r, -, hv⟩
  · exact hbefore (0 :: r) hr v hv
  · cases r <;> cases hv

theorem IsFirst.tail (h : IsFirst s (t :: ts) (shift p)) (hp : p ≠ []) (hs : Meets s [t] s') :
    IsFirst s' ts p := by
  intro q u hu hedit
  have hpq : p ++ q ≠ [] := List.append_ne_nil_of_left_ne_nil hp q
  rw [← nodeAt?_shift t, shift_append hp] at hu
  obtain ⟨hnew, hbefore⟩ := h q u hu hedit
  rw [← shift_append hp] at hbefore
  constructor
  · rw [hs]
    rintro (hi | ⟨v, ⟨r, hv⟩, hedit', hi⟩)
    · exact hnew hi
    · -- it would be met in the first term already
      rcases nodeAt?_cons hv with ⟨r, rfl, hv⟩ | ⟨r, -, hv⟩
      · exact hbefore (0 :: r) (cons_lt_shift hpq) v hv hedit' hi
      · cases r <;> cases hv
  · intro r hr v hv
    exact hbefore (shift r) (shift_lt_shift.mpr hr) v ((nodeAt?_shift t ts r).trans hv)

theorem IsFirst.children (h : IsFirst s [t] (0 :: p)) (hp : p ≠ [])
    (hs₁ : MeetsTop s t s₁) : IsFirst s₁ t.children p := by
  intro q u hu hedit
  have hpq : p ++ q ≠ [] := List.append_ne_nil_of_left_ne_nil hp q
  rw [← nodeAt?_children hpq] at hu
  obtain ⟨hnew, hbefore⟩ := h q u hu hedit
  constructor
  · intro hi
    rcases (hs₁ _).mp hi with hi | ⟨htop, hi⟩
    · exact hnew hi
    · have hlt : [0] < 0 :: (p ++ q) := by
        obtain ⟨j, r, hjr⟩ := List.exists_cons_of_ne_nil hpq
        rw [hjr, List.cons_lt_cons_iff]
        exact .inr ⟨rfl, List.nil_lt_cons j r⟩
      exact hbefore [0] hlt t rfl htop hi
  · intro r hr v hv
    have hlt : 0 :: r < 0 :: p ++ q := by
      rw [List.cons_append, List.cons_lt_cons_iff]
      exact .inr ⟨rfl, hr⟩
    exact hbefore (0 :: r) hlt v ((nodeAt?_children (ne_nil_of_nodeAt? hv)).trans hv)

/-! ### Lists -/

namespace Unshared

theorem nil (s : List Nat) (n k : Nat) : Unshared s n k [] [] where
  renews := .nil
  frozen := by rintro _ ⟨_ | _, h⟩ <;> cases h
  origin := by rintro _ ⟨_ | _, h⟩ <;> cases h
  single := by rintro (_ | _) _ _ _ h <;> cases h
  kept := by rintro (_ | _) _ h <;> cases h

theorem isCanonical (h : Unshared s n k ts us) (hu : IsNode us u) (hedit : u.isEditable) :
    u.isCanonical = false := by
  by_contra hc
  rw [h.frozen hu (by simpa using hc)] at hedit
  cases hedit

theorem mono (h : Unshared s n m ts us) (hk : m ≤ k) : Unshared s n k ts us :=
  { h with origin := fun hu hc => (h.origin hu hc).imp_left fun h => h.mono (Nat.le_refl n) hk }

/-- A node of the first term is not one of the others if one of the two is editable. -/
theorem id_ne (hheap : IsHeap N (c :: cs)) (hn : N ≤ n) (hm : n ≤ m) (h : Unshared s n m [c] [d])
    (h' : Unshared s' m k cs ds) (hs' : Meets s [c] s') {u v : Term} (hu : IsNode [d] u) (hv : IsNode ds v)
    (hcu : u.isCanonical = false) (hcv : v.isCanonical = false) (hedit : u.isEditable ∨ v.isEditable) :
    u.mark.id ≠ v.mark.id := by
  intro hid
  rcases h.origin hu hcu with hfresh | ⟨t, ht, hct, htu, -⟩
  · have hle := hfresh.le
    have hlt := hfresh.lt
    rcases h'.origin hv hcv with hfresh' | ⟨t', ht', hct', htv, -⟩
    · have hle' := hfresh'.le
      omega
    · have hlt' := hheap.id_lt (isNode_cons.mpr (.inr ht')) hct'
      rw [htv] at hlt'
      omega
  · have hlt := hheap.id_lt (isNode_cons.mpr (.inl ht)) hct
    rw [htu] at hlt
    rcases h'.origin hv hcv with hfresh' | ⟨t', ht', hct', htv, hnew⟩
    · have hle' := hfresh'.le
      omega
    · -- the old node is the same one, and its number has been met
      obtain rfl : t = t' := hheap.eq_of_id (isNode_cons.mpr (.inl ht)) (isNode_cons.mpr (.inr ht')) hct hct'
        (by rw [htu, htv, hid])
      have hedit' : t.isEditable := by
        rcases hedit with h | h
        · rwa [isEditable, htu]
        · rwa [isEditable, htv]
      exact hnew hedit' ((hs' _).mpr (.inr ⟨t, ht, hedit', rfl⟩))

theorem cons (hheap : IsHeap N (c :: cs)) (hn : N ≤ n) (hm : n ≤ m) (hk : m ≤ k)
    (h : Unshared s n m [c] [d]) (h' : Unshared s' m k cs ds) (hs' : Meets s [c] s') :
    Unshared s n k (c :: cs) (d :: ds) where
  renews := .cons (List.forall₂_cons.mp h.renews).1 h'.renews
  frozen hu hc := by
    rcases isNode_cons.mp hu with hu | hu
    · exact h.frozen hu hc
    · exact h'.frozen hu hc
  origin hu hc := by
    rcases isNode_cons.mp hu with hu | hu
    · refine (h.origin hu hc).imp (fun h => h.mono (Nat.le_refl n) hk) ?_
      rintro ⟨t, ht, hct, hmark, hnew⟩
      exact ⟨t, isNode_cons.mpr (.inl ht), hct, hmark, hnew⟩
    · refine (h'.origin hu hc).imp (fun h => h.mono hm (Nat.le_refl k)) ?_
      rintro ⟨t, ht, hct, hmark, hnew⟩
      exact ⟨t, isNode_cons.mpr (.inr ht), hct, hmark, fun hedit hi => hnew hedit ((hs' _).mpr (.inl hi))⟩
  single {p q u v} hu hv hedit hc hid := by
    rcases nodeAt?_cons hu with ⟨p, rfl, hu'⟩ | ⟨p, rfl, hu'⟩ <;>
      rcases nodeAt?_cons hv with ⟨q, rfl, hv'⟩ | ⟨q, rfl, hv'⟩
    · exact h.single hu' hv' hedit hc hid
    · have hcu := h.isCanonical ⟨_, hu'⟩ hedit
      exact absurd hid (id_ne hheap hn hm h h' hs' ⟨_, hu'⟩ ⟨_, hv'⟩ hcu hc (.inl hedit))
    · have hcu := h'.isCanonical ⟨_, hu'⟩ hedit
      exact absurd hid.symm (id_ne hheap hn hm h h' hs' ⟨_, hv'⟩ ⟨_, hu'⟩ hc hcu (.inr hedit))
    · exact congrArg shift (h'.single hu' hv' hedit hc hid)
  kept {p t} ht hp hfirst := by
    rcases nodeAt?_cons ht with ⟨p, rfl, ht'⟩ | ⟨p, rfl, ht'⟩
    · exact h.kept ht' hp hfirst.head
    · have hne := ne_nil_of_nodeAt? ht'
      rw [nodeAt?_shift]
      refine h'.kept ht' (hp.imp_left fun hlen => ?_) (hfirst.tail hne hs')
      obtain ⟨i, p, rfl⟩ := List.exists_cons_of_ne_nil hne
      exact hlen

/-! ### Nodes -/

/-- Terms in which nothing is editable stay as they are. -/
theorem of_untouched (hheap : IsHeap N ts) (h : ∀ t, IsNode ts t → t.isEditable = false) :
    Unshared s n k ts ts where
  renews := List.forall₂_same.mpr fun _ _ => ⟨beq_of_node_eq rfl, rfl⟩
  frozen := hheap.frozen
  origin {u} hu hc := .inr ⟨u, hu, hc, rfl, fun hedit => by rw [h u hu] at hedit; cases hedit⟩
  single hu _ hedit := by
    rw [h _ ⟨_, hu⟩] at hedit
    cases hedit
  kept ht _ _ := ht

/-- Terms that stay as they are have no editable node that was met before. -/
theorem not_mem (hheap : IsHeap N ts) (hn : N ≤ n) (h : Unshared s n k ts ts) (ht : IsNode ts t)
    (hedit : t.isEditable) : t.mark.id ∉ s := by
  have hc := hheap.isCanonical ht hedit
  rcases h.origin ht hc with hfresh | ⟨u, hu, hcu, hmark, hnew⟩
  · have hlt := hheap.id_lt ht hc
    have hle := hfresh.le
    omega
  · rw [← hmark]
    exact hnew (by rwa [isEditable, hmark])

/-- A node with the same children is the same node. -/
theorem same (hheap : IsHeap N [t]) (hn : N ≤ n) (h : Unshared s₁ n k t.children t.children)
    (hs₁ : MeetsTop s t s₁) (ht : t.isEditable → t.mark.id ∉ s) :
    Unshared s n k [t] [t] := by
  have htop {u : Term} (hu : IsNode t.children u) (hedit : t.isEditable) (hc : u.isCanonical = false) :
      t.mark.id ≠ u.mark.id := by
    intro hid
    have htop : IsNode [t] t := isNode_single.mpr (.inl rfl)
    have hct := hheap.isCanonical htop hedit
    have hut := hheap.eq_of_id htop (isNode_single.mpr (.inr hu)) hct hc hid
    rw [← hut] at hu
    exact not_isNode_children t hu
  exact {
    renews := .cons ⟨beq_of_node_eq rfl, rfl⟩ .nil
    frozen := hheap.frozen
    origin := fun {u} hu hc => .inr ⟨u, hu, hc, rfl, fun hedit => by
      rcases isNode_single.mp hu with rfl | hu
      · exact ht hedit
      · exact fun hi => h.not_mem hheap.children hn hu hedit ((hs₁ _).mpr (.inl hi))⟩
    single := fun {p q u v} hu hv hedit hc hid => by
      rcases nodeAt?_single hu with ⟨rfl, rfl⟩ | ⟨p, rfl, hu'⟩ <;>
        rcases nodeAt?_single hv with ⟨rfl, rfl⟩ | ⟨q, rfl, hv'⟩
      · rfl
      · exact absurd hid (htop ⟨_, hv'⟩ hedit hc)
      · have hcu := hheap.isCanonical ⟨_, hu⟩ hedit
        have huv := hheap.eq_of_id ⟨_, hu⟩ ⟨_, hv⟩ hcu hc hid
        exact absurd hid.symm (htop ⟨_, hu'⟩ (huv ▸ hedit) hcu)
      · rw [h.single hu' hv' hedit hc hid]
    kept := fun ht _ _ => ht }

section Redone
variable {vs : List Term} {v : Term}

theorem nodeAt?_of_redone (h : List.Forall₂ (Redone m k) ds vs) (hv : nodeAt? vs p = some v) :
    nodeAt? ds p = some v ∨ (Fresh m k v ∧ v.isEditable = false) := by
  match p, hv with
  | i :: p, hv =>
    obtain ⟨w, hw, hwv⟩ := Option.bind_eq_some_iff.mp hv
    obtain ⟨d, hd, hdw⟩ := PairedLists.exists_getElem? h.flip hw
    rw [nodeAt?, hd, Option.bind_some]
    cases hdw with
    | kept => exact .inl hwv
    | anew hn hd' hw' hfresh =>
      cases p with
      | nil =>
        cases hwv
        exact .inr ⟨hfresh, hw'⟩
      | cons j p =>
        rw [at?_cons, Term.children, hn] at hwv
        exact .inl (at?_cons.trans hwv)

theorem nodeAt?_redone (h : List.Forall₂ (Redone m k) ds vs) (hd : nodeAt? ds p = some d)
    (hedit : d.isEditable) : nodeAt? vs p = some d := by
  match p, hd with
  | i :: p, hd =>
    obtain ⟨w, hw, hwd⟩ := Option.bind_eq_some_iff.mp hd
    obtain ⟨v, hv, hwv⟩ := PairedLists.exists_getElem? h hw
    rw [nodeAt?, hv, Option.bind_some]
    cases hwv with
    | kept => exact hwd
    | anew hn hw' _ _ =>
      cases p with
      | nil =>
        cases hwd
        rw [hw'] at hedit
        cases hedit
      | cons j p =>
        rw [at?_cons, Term.children, ← hn] at hwd
        exact at?_cons.trans hwd

end Redone

/-- A node made again, where something editable in it was met before. -/
theorem anew (hheap : IsHeap N [t]) (hn : N ≤ n) (hm : n ≤ m) (h : Unshared s₁ n m t.children ds)
    (hs₁ : MeetsTop s t s₁) (hmet : ¬IsFirst s [t] [0])
    (hu : Renews u t) (hfresh : Fresh m k u) (hc : List.Forall₂ (Redone m u.mark.id) ds u.children) :
    Unshared s n k [t] [u] := by
  have hold {v : Term} (hv : IsNode ds v) (hcv : v.isCanonical = false) : v.mark.id < m := by
    rcases h.origin hv hcv with h | ⟨c, hc, hcc, hmark, -⟩
    · exact h.lt
    · have hlt := hheap.id_lt (isNode_single.mpr (.inr hc)) hcc
      rw [hmark] at hlt
      omega
  have hlt {v : Term} (hv : IsNode u.children v) (hcv : v.isCanonical = false) : v.mark.id < u.mark.id := by
    obtain ⟨p, hv⟩ := hv
    rcases nodeAt?_of_redone hc hv with hv | ⟨hv, -⟩
    · exact Nat.lt_of_lt_of_le (hold ⟨p, hv⟩ hcv) hfresh.le
    · exact hv.lt
  have hfrozen {v : Term} (hv : IsNode u.children v) (hedit : v.isEditable) : v.isCanonical = false := by
    obtain ⟨p, hv⟩ := hv
    rcases nodeAt?_of_redone hc hv with hv | ⟨hv, -⟩
    · exact h.isCanonical ⟨p, hv⟩ hedit
    · exact hv.isCanonical
  exact {
    renews := .cons hu .nil
    frozen := fun {v} hv hcv => by
      by_contra hedit
      rcases isNode_single.mp hv with rfl | hv
      · rw [hfresh.isCanonical] at hcv
        cases hcv
      · rw [hfrozen hv (by simpa using hedit)] at hcv
        cases hcv
    origin := fun {v} hv hcv => by
      rcases isNode_single.mp hv with rfl | ⟨p, hv⟩
      · exact .inl (hfresh.mono hm (Nat.le_refl k))
      · rcases nodeAt?_of_redone hc hv with hv | ⟨hv, -⟩
        · refine (h.origin ⟨p, hv⟩ hcv).imp
            (fun h => h.mono (Nat.le_refl n) (Nat.le_trans hfresh.le (Nat.le_of_lt hfresh.lt))) ?_
          rintro ⟨c, hc, hcc, hmark, hnew⟩
          exact ⟨c, isNode_single.mpr (.inr hc), hcc, hmark, fun hedit hi => hnew hedit ((hs₁ _).mpr (.inl hi))⟩
        · exact .inl (hv.mono hm (Nat.le_of_lt hfresh.lt))
    single := fun {p q v w} hv hw hedit hcw hid => by
      rcases nodeAt?_single hv with ⟨rfl, rfl⟩ | ⟨p, rfl, hv'⟩ <;>
        rcases nodeAt?_single hw with ⟨rfl, rfl⟩ | ⟨q, rfl, hw'⟩
      · rfl
      · exact absurd hid (Nat.ne_of_gt (hlt ⟨_, hw'⟩ hcw))
      · exact absurd hid (Nat.ne_of_lt (hlt ⟨_, hv'⟩ (hfrozen ⟨_, hv'⟩ hedit)))
      · have hvd := (nodeAt?_of_redone hc hv').resolve_right fun h => by rw [h.2] at hedit; cases hedit
        rcases nodeAt?_of_redone hc hw' with hwd | ⟨hwd, -⟩
        · rw [h.single hvd hwd hedit hcw hid]
        · -- what was made with the node has a number that no child has
          have hlt := hold ⟨_, hvd⟩ (h.isCanonical ⟨_, hvd⟩ hedit)
          have hle := hwd.le
          omega
    kept := fun {p c} hc' hp hfirst => by
      rcases nodeAt?_single hc' with ⟨rfl, -⟩ | ⟨p, rfl, hc''⟩
      · exact absurd hfirst hmet
      · have hne := ne_nil_of_nodeAt? hc''
        have hedit : c.isEditable := hp.resolve_left fun hlen => hne (by simpa using hlen)
        rw [nodeAt?_children hne]
        exact nodeAt?_redone hc (h.kept hc'' (.inr hedit) (hfirst.children hne hs₁)) hedit }

/-- A list with a lone item that becomes another one. The list has its number still, until it is made
again as a run of its owner's items. -/
theorem lone {ops : CollectionOps} {x : Term} (hheap : IsHeap N [t]) (hn : N ≤ n)
    (ht : t.node = .list ops [x] [] []) (hedit : t.isEditable = false) (h : Unshared s₁ n k [x] [u])
    (hs₁ : MeetsTop s t s₁) (hmet : ¬IsFirst s [t] [0]) :
    Unshared s n k [t] [⟨t.mark, .list ops [u] [] []⟩] := by
  have hchildren : t.children = [x] := by rw [Term.children, ht]; rfl
  have htc : t.isCanonical = false := by rw [Term.isCanonical, ht]; rfl
  have htop : IsNode [t] t := isNode_single.mpr (.inl rfl)
  have hbelow {v : Term} (hv : IsNode [x] v) : IsNode [t] v := isNode_single.mpr (.inr (hchildren ▸ hv))
  have hid {v : Term} (hv : IsNode [u] v) (hcv : v.isCanonical = false) : v.mark.id ≠ t.mark.id := by
    intro hid
    rcases h.origin hv hcv with hfresh | ⟨w, hw, hcw, hmark, -⟩
    · have hlt := hheap.id_lt htop htc
      have hle := hfresh.le
      omega
    · obtain rfl := hheap.eq_of_id (hbelow hw) htop hcw htc (hmark ▸ hid)
      exact not_isNode_children w (hchildren ▸ hw)
  exact {
    renews := .cons ⟨beq_of_alike (ht ▸ .list (h.renews.imp fun _ _ h => h.beq) .nil .nil), rfl⟩ .nil
    frozen := fun {v} hv hcv => by
      rcases isNode_single.mp hv with rfl | hv
      · exact hedit
      · exact h.frozen hv hcv
    origin := fun {v} hv hcv => by
      rcases isNode_single.mp hv with rfl | hv
      · exact .inr ⟨t, htop, htc, rfl, fun h => by rw [hedit] at h; cases h⟩
      · refine (h.origin hv hcv).imp_right ?_
        rintro ⟨w, hw, hcw, hmark, hnew⟩
        exact ⟨w, hbelow hw, hcw, hmark, fun hedit hi => hnew hedit ((hs₁ _).mpr (.inl hi))⟩
    single := fun {p q v w} hv hw hev hcw hvw => by
      rcases nodeAt?_single hv with ⟨rfl, rfl⟩ | ⟨p, rfl, hv'⟩ <;>
        rcases nodeAt?_single hw with ⟨rfl, rfl⟩ | ⟨q, rfl, hw'⟩
      · rfl
      · exact absurd hvw.symm (hid ⟨_, hw'⟩ hcw)
      · exact absurd hvw (hid ⟨_, hv'⟩ (h.isCanonical ⟨_, hv'⟩ hev))
      · exact congrArg (List.cons 0) (h.single hv' hw' hev hcw hvw)
    kept := fun {p c} hc hp hfirst => by
      rcases nodeAt?_single hc with ⟨rfl, -⟩ | ⟨p, rfl, hc'⟩
      · exact absurd hfirst hmet
      · have hne := ne_nil_of_nodeAt? hc'
        have hec : c.isEditable := hp.resolve_left fun hlen => hne (by simpa using hlen)
        rw [nodeAt?_children hne]
        rw [hchildren] at hc'
        refine h.kept hc' (.inr hec) ?_
        rw [← hchildren]
        exact hfirst.children hne hs₁ }

end Unshared

/-! ### Numbers met -/

section Meets

theorem Meets.trans {s'' : List Nat} (h : Meets s [c] s') (h' : Meets s' cs s'') : Meets s (c :: cs) s'' := by
  intro i
  rw [h', h, or_assoc]
  refine or_congr_right ?_
  constructor
  · rintro (⟨t, ht, hi⟩ | ⟨t, ht, hi⟩)
    · exact ⟨t, isNode_cons.mpr (.inl ht), hi⟩
    · exact ⟨t, isNode_cons.mpr (.inr ht), hi⟩
  · rintro ⟨t, ht, hi⟩
    exact (isNode_cons.mp ht).imp (fun ht => ⟨t, ht, hi⟩) fun ht => ⟨t, ht, hi⟩

/-- Nothing new is met where every editable node has been met. -/
theorem Meets.refl (h : ∀ t, IsNode ts t → t.isEditable → t.mark.id ∈ s) : Meets s ts s := by
  refine fun i => ⟨.inl, ?_⟩
  rintro (hi | ⟨t, ht, hedit, rfl⟩)
  · exact hi
  · exact h t ht hedit

theorem Meets.node (hs₁ : MeetsTop s t s₁) (h : Meets s₁ t.children s') :
    Meets s [t] s' := by
  intro i
  rw [h, hs₁, or_assoc]
  refine or_congr_right ?_
  constructor
  · rintro (hi | ⟨c, hc, hi⟩)
    · exact ⟨t, isNode_single.mpr (.inl rfl), hi⟩
    · exact ⟨c, isNode_single.mpr (.inr hc), hi⟩
  · rintro ⟨c, hc, hi⟩
    rcases isNode_single.mp hc with rfl | hc
    · exact .inl hi
    · exact .inr ⟨c, hc, hi⟩

/-- With an editable node, every editable node below it has been met. -/
def IsClosed (s : List Nat) (ts : List Term) : Prop :=
  ∀ t, IsNode ts t → t.isEditable → t.mark.id ∈ s → ∀ u, IsNode [t] u → u.isEditable → u.mark.id ∈ s

theorem IsClosed.head (h : IsClosed s (t :: ts)) : IsClosed s [t] :=
  fun u hu => h u (isNode_cons.mpr (.inl hu))

theorem IsClosed.tail (hheap : IsHeap N (t :: ts)) (h : IsClosed s (t :: ts)) (hs : Meets s [t] s') :
    IsClosed s' ts := by
  intro u hu hedit hi v hv hedit'
  have hu' : IsNode (t :: ts) u := isNode_cons.mpr (.inr hu)
  rw [hs] at hi ⊢
  rcases hi with hi | ⟨w, hw, hew, hi⟩
  · exact .inl (h u hu' hedit hi v hv hedit')
  · -- the node stands in the first term as well, and everything below it
    have hw' : IsNode (t :: ts) w := isNode_cons.mpr (.inl hw)
    obtain rfl := hheap.eq_of_id hw' hu' (hheap.isCanonical hw' hew) (hheap.isCanonical hu' hedit) hi
    exact .inr ⟨v, hw.trans hv, hedit', rfl⟩

theorem IsClosed.children (hheap : IsHeap N [t]) (h : IsClosed s [t])
    (hs₁ : MeetsTop s t s₁) : IsClosed s₁ t.children := by
  intro u hu hedit hi v hv hedit'
  have htop : IsNode [t] t := isNode_single.mpr (.inl rfl)
  have hu' : IsNode [t] u := isNode_single.mpr (.inr hu)
  rw [hs₁] at hi ⊢
  rcases hi with hi | ⟨het, hi⟩
  · exact .inl (h u hu' hedit hi v hv hedit')
  · obtain rfl := hheap.eq_of_id htop hu' (hheap.isCanonical htop het) (hheap.isCanonical hu' hedit) hi
    exact absurd hu (not_isNode_children t)

end Meets

end RuleCompiler.Term
