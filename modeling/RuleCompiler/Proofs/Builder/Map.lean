import RuleCompiler.Proofs.Builder.Ground

/-! # Maps of ground terms

A map is made again from some of its entries and from a term that brings the others and the unknown
parts. -/

namespace RuleCompiler

open Build (Always)

/-- Whether the term is a map of `ops`. -/
def Term.isMapOf (ops : CollectionOps) (t : Term) : Bool :=
  match t.node with
  | .map ops' .. => ops' = ops
  | _ => false

/-- An entry written down. -/
def Term.entryCode (e : Term × Term) : List Symbol × List Symbol := (e.1.code, e.2.code)

namespace MapParts

/-- Whether a map of `ops` leaves the term as it is. -/
def isPart (ops : CollectionOps) (t : Term) : Bool := !t.isMapOf ops && !ops.isUnit t

/-- Whether the keys are in strict order and the unknown parts in order, the map is more than one
unknown part, and none of these is a map itself. -/
def isNormal (p : MapParts) : Bool :=
  decide (p.entries.Pairwise fun a b => a.1.cmp b.1 = .lt) &&
    decide (p.base.Pairwise fun a b => (a.cmp b).isLE) && p.base.all (isPart p.ops) &&
      !(p.entries.isEmpty && p.base.length == 1)

/-- Entries set one after the other. -/
def putAll (es entries : List (Term × Term)) : List (Term × Term) :=
  es.foldl (fun l e => SortedList.put Term.cmp e.1 e.2 l) entries

theorem foldl_put (es : List (Term × Term)) : ∀ p : MapParts,
    es.foldl (fun p e => p.put e.1 e.2) p = { p with entries := putAll es p.entries } := by
  induction es with
  | nil => exact fun _ => rfl
  | cons e es ih =>
    intro p
    rw [List.foldl_cons, ih]
    rfl

theorem concat_part {p : MapParts} {t : Term} (ht : isPart p.ops t) :
    p.concat t = { p with base := p.base ++ [t] } := by
  rw [isPart, Bool.and_eq_true, Bool.not_eq_true', Bool.not_eq_true'] at ht
  unfold concat
  split
  · rename_i hn
    rw [Term.isMapOf, hn, decide_eq_false_iff_not] at ht
    rw [if_neg ht.1]
  · rw [ht.2]
    rfl

theorem concat_map {p : MapParts} {t : Term} {es : List (Term × Term)} {base : List Term}
    (hn : t.node = .map p.ops es base) :
    p.concat t = { p with entries := putAll es p.entries, base := p.base ++ base } := by
  unfold concat
  rw [hn]
  simp only [if_true]
  rw [foldl_put]

theorem foldl_concat_parts {ts : List Term} : ∀ {p : MapParts}, (∀ t ∈ ts, isPart p.ops t) →
    ts.foldl concat p = { p with base := p.base ++ ts } := by
  induction ts with
  | nil =>
    intro p _
    rw [List.foldl_nil, List.append_nil]
  | cons t ts ih =>
    intro p h
    obtain ⟨ht, hts⟩ := List.forall_mem_cons.mp h
    rw [List.foldl_cons, concat_part ht, ih (p := { p with base := p.base ++ [t] }) hts,
      List.append_assoc]
    rfl

theorem build_eq (ops : CollectionOps) (es : List (Term × Term)) :
    build { ops, entries := es } = Term.new (.map ops es []) := by
  cases es <;> rfl

/-- More than a single unknown part makes a map. -/
theorem build_of_many {p : MapParts} (h : (p.entries.isEmpty && p.base.length == 1) = false) :
    p.build = Term.new (.map p.ops p.entries (SortedList.sort Term.cmp p.base)) := by
  unfold build
  split
  · rename_i hnil hone
    rw [hnil, hone] at h
    cases h
  · rfl

/-- Entries of different keys. -/
abbrev KeysDiffer (es : List (Term × Term)) : Prop := es.Pairwise fun a b => a.1.cmp b.1 ≠ .eq

theorem KeysDiffer.of_perm {es es' : List (Term × Term)}
    (hp : (es.map Term.entryCode).Perm (es'.map Term.entryCode)) (h : KeysDiffer es') :
    KeysDiffer es := by
  have hcodes : (es'.map Term.entryCode).Pairwise fun a b => Term.cmpCode a.1 b.1 ≠ .eq :=
    List.pairwise_map.mpr h
  have hsymm : ∀ {a b : List Symbol × List Symbol}, Term.cmpCode a.1 b.1 ≠ .eq →
      Term.cmpCode b.1 a.1 ≠ .eq :=
    fun hne heq => hne (Std.OrientedCmp.eq_symm heq)
  exact List.pairwise_map.mp ((hp.pairwise_iff hsymm).mpr hcodes)

theorem KeysDiffer.of_sorted {es : List (Term × Term)}
    (h : es.Pairwise fun a b => a.1.cmp b.1 = .lt) : KeysDiffer es :=
  h.imp fun h heq => by rw [h] at heq; cases heq

theorem perm_putAll {es l : List (Term × Term)} (h : KeysDiffer (l ++ es)) :
    (putAll es l).Perm (l ++ es) :=
  SortedList.perm_foldl (R := fun a b => a.1.cmp b.1 ≠ .eq)
    (fun hne heq => hne (Std.OrientedCmp.eq_symm heq))
    (fun _ _ hl => SortedList.perm_put fun b hb heq => hl b hb (Std.OrientedCmp.eq_symm heq)) h

theorem sorted_putAll {es : List (Term × Term)} : ∀ {l : List (Term × Term)},
    (l.Pairwise fun a b => a.1.cmp b.1 = .lt) →
      (putAll es l).Pairwise fun a b => a.1.cmp b.1 = .lt := by
  induction es with
  | nil => exact id
  | cons e es ih => exact fun h => ih (SortedList.pairwise_put e.1 e.2 h)

/-- A map with the entries of `s`, and with the unknown parts of `s`, is `s`. -/
theorem always_build {p : MapParts} {s : Term} {es : List (Term × Term)} {base : List Term}
    (hs : s.node = .map p.ops es base) (hn : isNormal { ops := p.ops, entries := es, base })
    (hsorted : p.entries.Pairwise fun a b => a.1.cmp b.1 = .lt)
    (he : (p.entries.map Term.entryCode).Perm (es.map Term.entryCode))
    (hb : (p.base.map Term.code).Perm (base.map Term.code)) : Always p.build (· == s) := by
  simp only [isNormal, Bool.and_eq_true, decide_eq_true_eq, Bool.not_eq_true'] at hn
  obtain ⟨⟨⟨hkeys, hbase⟩, -⟩, hmany⟩ := hn
  have hes : p.entries.length = es.length := by simpa using he.length_eq
  have hbs : p.base.length = base.length := by simpa using hb.length_eq
  have hbuild : p.build = Term.new (.map p.ops p.entries (SortedList.sort Term.cmp p.base)) :=
    build_of_many (by rwa [PairedLists.isEmpty_of_length hes, hbs])
  have hcodes : p.entries.map Term.entryCode = es.map Term.entryCode :=
    SortedList.map_eq_of_perm
      (r := fun a b : List Symbol × List Symbol => Term.cmpCode a.1 b.1 = .lt)
      (fun h h' => (Term.not_lt_lt h h').elim) he hsorted hkeys
  have hparts : ((SortedList.sort Term.cmp p.base).map Term.code).Perm (base.map Term.code) :=
    ((SortedList.perm_sort p.base).map _).trans hb
  rw [hbuild]
  refine (Term.always_new _).mono fun t ht => Term.beq_of_alike ?_
  rw [ht, hs]
  refine .map (PairedLists.of_map_eq (fun e e' h => ?_) hcodes)
    (Term.equal_of_sorted hparts (SortedList.sorted_sort _) hbase)
  rw [Term.entryCode, Term.entryCode, Prod.mk.injEq] at h
  exact ⟨Term.beq_iff.mpr h.1, Term.beq_iff.mpr h.2⟩

/-- The entries and unknown parts that a term brings to a map of `ops`. -/
inductive Brings (ops : CollectionOps) (t : Term) : List (Term × Term) → List Term → Prop where
  | map {es : List (Term × Term)} {base : List Term} (hn : t.node = .map ops es base) :
      Brings ops t es base
  | part (ht : isPart ops t) : Brings ops t [] [t]

theorem concat_of_brings {p : MapParts} {t : Term} {es : List (Term × Term)} {base : List Term}
    (h : Brings p.ops t es base) :
    p.concat t = { p with entries := putAll es p.entries, base := p.base ++ base } := by
  cases h with
  | map hn => exact concat_map hn
  | part ht => exact concat_part ht

theorem isPart_congr {ops : CollectionOps} {t u : Term} (h : t == u) : isPart ops t = isPart ops u := by
  have halike := Term.alike_of_beq h
  rw [isPart, isPart, CollectionOps.isUnit_congr h, Term.isMapOf, Term.isMapOf]
  generalize t.node = m, u.node = n at halike
  cases halike <;> rfl

theorem Brings.congr {ops : CollectionOps} {t u : Term} {es : List (Term × Term)} {base : List Term}
    (htu : t == u) (h : Brings ops u es base) : ∃ es' base', Brings ops t es' base' ∧
      es'.map Term.entryCode = es.map Term.entryCode ∧ Term.Equal base' base := by
  cases h with
  | map hn =>
    have halike := Term.alike_of_beq htu
    rw [hn] at halike
    generalize hm : t.node = m at halike
    cases halike with
    | map he hb =>
      refine ⟨_, _, .map hm, PairedLists.map_eq (he.imp fun e e' h => ?_), hb⟩
      rw [Term.entryCode, Term.entryCode, Term.beq_iff.mp h.1, Term.beq_iff.mp h.2]
  | part ht => exact ⟨[], [t], .part (by rwa [isPart_congr htu]), rfl, .cons htu .nil⟩

/-- What is left of a map is its only part or a map of what is left. -/
theorem returns_rest {ops : CollectionOps} {entries : List (Term × Term)} {base : List Term}
    (hsorted : entries.Pairwise fun a b => a.1.cmp b.1 = .lt) (hbase : ∀ t ∈ base, isPart ops t) :
    Returns (fun r => (entries = [] ∧ base = [r]) ∨ ∃ parts : List Term,
        r.node = .map ops entries parts ∧ parts.Perm base ∧ isNormal { ops, entries, base := parts })
      (base.foldl concat { ops, entries }).build := by
  rw [foldl_concat_parts hbase, build]
  split
  · exact .pure (.inl ⟨‹_›, ‹_›⟩)
  · rename_i hone
    rw [List.nil_append] at hone ⊢
    have hperm : (SortedList.sort Term.cmp base).Perm base := SortedList.perm_sort base
    refine (Term.returns_new _).mono fun r hr => .inr ⟨_, hr, hperm, ?_⟩
    have hmany : (entries.isEmpty && (SortedList.sort Term.cmp base).length == 1) = false := by
      rw [hperm.length_eq, Bool.and_eq_false_iff]
      by_contra h
      push Not at h
      obtain ⟨t, ht⟩ := List.length_eq_one_iff.mp (by simpa using h.2)
      exact hone t (by simpa using h.1) ht
    simp only [isNormal, hmany, Bool.and_eq_true, decide_eq_true_eq, List.all_eq_true]
    exact ⟨⟨⟨hsorted, SortedList.sorted_sort base⟩, fun t ht => hbase t (SortedList.mem_sort.mp ht)⟩, rfl⟩

/-! #### Maps made again -/

theorem pairUp_flatMap : ∀ es : List (Term × Term),
    Term.pairUp (es.flatMap fun e => [e.1, e.2]) = es
  | [] => rfl
  | e :: es => by
    rw [List.flatMap_cons, List.cons_append, List.cons_append, List.nil_append, Term.pairUp,
      pairUp_flatMap es]

theorem length_flatMap (es : List (Term × Term)) :
    (es.flatMap fun e => [e.1, e.2]).length = 2 * es.length := by
  induction es with
  | nil => rfl
  | cons e es ih => rw [List.flatMap_cons, List.length_append, ih, List.length_cons]; simp; omega

/-- Keys and values equal to those of entries are those of equal entries. -/
theorem exists_entries {bs : List Term} : ∀ {es : List (Term × Term)} {cs : List Term},
    Term.Equal cs ((es.flatMap fun e => [e.1, e.2]) ++ bs) →
      ∃ (es' : List (Term × Term)) (bs' : List Term), cs = (es'.flatMap fun e => [e.1, e.2]) ++ bs' ∧
        es'.map Term.entryCode = es.map Term.entryCode ∧ Term.Equal bs' bs
  | [], cs, h => ⟨[], cs, rfl, rfl, h⟩
  | e :: es, cs, h => by
    rw [List.flatMap_cons, List.cons_append, List.cons_append, List.cons_append,
      List.nil_append] at h
    cases h with
    | @cons k _ _ _ hk h =>
    cases h with
    | @cons v _ _ _ hv h =>
    obtain ⟨es', bs', rfl, hes, hbs⟩ := exists_entries h
    refine ⟨(k, v) :: es', bs', by simp, ?_, hbs⟩
    rw [List.map_cons, List.map_cons, hes, Term.entryCode, Term.entryCode, Term.beq_iff.mp hk,
      Term.beq_iff.mp hv]

theorem rebuild_eq {ops : CollectionOps} {t : Term} {entries es : List (Term × Term)}
    {base bs fs : List Term} (hn : t.node = .map ops entries base)
    (hlen : es.length = entries.length) :
    t.rebuild ((es.flatMap fun e => [e.1, e.2]) ++ bs) fs =
      (bs.foldl concat { ops, entries := putAll es [] }).build := by
  unfold Term.rebuild
  rw [hn]
  simp only [List.splitAt_eq]
  rw [← hlen, ← length_flatMap, List.take_left, List.drop_left, pairUp_flatMap, foldl_put]

/-- A map is made again from entries and from what brings the other entries and the unknown parts. -/
theorem always_rebuild {ops : CollectionOps} {t s : Term} {entries es used rest : List (Term × Term)}
    {base base' bs parts cs fs : List Term} (hn : t.node = .map ops entries base')
    (hs : s.node = .map ops es base) (hnormal : isNormal { ops, entries := es, base })
    (hlen : used.length = entries.length) (hes : es.Perm (used ++ rest)) (hbase : parts.Perm base)
    (hbs : (bs = [] ∧ rest = [] ∧ parts = []) ∨ ∃ r, bs = [r] ∧ Brings ops r rest parts)
    (hcs : Term.Equal cs ((used.flatMap fun e => [e.1, e.2]) ++ bs)) :
    Always (t.rebuild cs fs) (· == s) := by
  obtain ⟨used', bs', rfl, hused, hbs'⟩ := exists_entries hcs
  have hsorted : es.Pairwise fun a b => a.1.cmp b.1 = .lt := by
    simp only [isNormal, Bool.and_eq_true, decide_eq_true_eq] at hnormal
    exact hnormal.1.1.1
  have hlen' : used'.length = entries.length := by
    have h := congrArg List.length hused
    rw [List.length_map, List.length_map] at h
    rw [h, hlen]
  rw [rebuild_eq hn hlen']
  -- the entries and parts that there are in the end, up to equality
  obtain ⟨rest', parts', hconcat, hrest, hparts⟩ : ∃ (rest' : List (Term × Term))
      (parts' : List Term), bs'.foldl concat { ops, entries := putAll used' [] } =
        { ops, entries := putAll rest' (putAll used' []), base := parts' } ∧
      rest'.map Term.entryCode = rest.map Term.entryCode ∧ Term.Equal parts' parts := by
    rcases hbs with ⟨rfl, rfl, rfl⟩ | ⟨r, rfl, hr⟩
    · cases hbs'
      exact ⟨[], [], rfl, rfl, .nil⟩
    · cases hbs' with
      | @cons r' _ _ _ hrr h =>
      cases h
      obtain ⟨rest', parts', hr', hrest, hparts⟩ := hr.congr hrr
      refine ⟨rest', parts', ?_, hrest, hparts⟩
      rw [List.foldl_cons, List.foldl_nil, concat_of_brings (p := ⟨ops, _, _⟩) hr', List.nil_append]
  have hcodes : ((used' ++ rest').map Term.entryCode).Perm (es.map Term.entryCode) := by
    rw [List.map_append, hused, hrest, ← List.map_append]
    exact (hes.map _).symm
  have hdiffer : KeysDiffer (used' ++ rest') := .of_perm hcodes (.of_sorted hsorted)
  have hperm₁ : (putAll used' []).Perm used' :=
    perm_putAll (l := []) (List.pairwise_append.mp hdiffer).1
  have hperm₂ : (putAll rest' (putAll used' [])).Perm (used' ++ rest') := by
    refine (perm_putAll ?_).trans (hperm₁.append_right rest')
    exact .of_perm ((hperm₁.append_right rest').map _) hdiffer
  rw [hconcat]
  refine always_build hs hnormal (sorted_putAll (sorted_putAll .nil)) ?_ ?_
  · exact (hperm₂.map _).trans hcodes
  · rw [Term.equal_iff.mp hparts]
    exact hbase.map _

end MapParts

end RuleCompiler
