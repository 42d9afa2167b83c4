import RuleCompiler.Proofs.Builder.Ground

/-! # Sets of ground terms

A set is made again from some of its elements and from a term that brings the others and the unknown
parts. -/

namespace RuleCompiler

open Build (Always)

/-- Whether the term is a set of `ops`. -/
def Term.isSetOf (ops : CollectionOps) (t : Term) : Bool :=
  match t.node with
  | .set ops' .. => ops' = ops
  | _ => false

namespace SetParts

/-- Whether a set of `ops` leaves the term as it is. -/
def isPart (ops : CollectionOps) (t : Term) : Bool := !t.isSetOf ops && !ops.isUnit t

/-- Whether the elements are in strict order and the unknown parts in order, the set is more than one
unknown part, and none of these is a set itself. -/
def isNormal (p : SetParts) : Bool :=
  decide (p.elements.Pairwise fun a b => a.cmp b = .lt) &&
    decide (p.base.Pairwise fun a b => (a.cmp b).isLE) && p.base.all (isPart p.ops) &&
      !(p.elements.isEmpty && p.base.length == 1)

/-- Elements added one after the other. -/
def addAll (ts elements : List Term) : List Term :=
  ts.foldl (fun l t => SortedList.addNew Term.cmp t l) elements

theorem foldl_add (ts : List Term) : ∀ p : SetParts,
    ts.foldl add p = { p with elements := addAll ts p.elements } := by
  induction ts with
  | nil => exact fun _ => rfl
  | cons t ts ih =>
    intro p
    rw [List.foldl_cons, ih]
    rfl

theorem concat_part {p : SetParts} {t : Term} (ht : isPart p.ops t) :
    p.concat t = { p with base := p.base ++ [t] } := by
  rw [isPart, Bool.and_eq_true, Bool.not_eq_true', Bool.not_eq_true'] at ht
  unfold concat
  split
  · rename_i hn
    rw [Term.isSetOf, hn, decide_eq_false_iff_not] at ht
    rw [if_neg ht.1]
  · rw [ht.2]
    rfl

theorem foldl_concat_parts {ts : List Term} : ∀ {p : SetParts}, (∀ t ∈ ts, isPart p.ops t) →
    ts.foldl concat p = { p with base := p.base ++ ts } := by
  induction ts with
  | nil =>
    intro p _
    rw [List.foldl_nil, List.append_nil]
  | cons t ts ih =>
    intro p h
    obtain ⟨ht, hts⟩ := List.forall_mem_cons.mp h
    rw [List.foldl_cons, concat_part ht, ih (p := { p with base := p.base ++ [t] }) hts,
      List.append_assoc]
    rfl

/-- Elements that are not equal. -/
abbrev Differ (ts : List Term) : Prop := ts.Pairwise fun a b => a.cmp b ≠ .eq

theorem Differ.of_perm {ts us : List Term} (hp : (ts.map Term.code).Perm (us.map Term.code))
    (h : Differ us) : Differ ts := by
  have hcodes : (us.map Term.code).Pairwise fun a b => Term.cmpCode a b ≠ .eq :=
    List.pairwise_map.mpr h
  have hsymm : ∀ {a b : List Symbol}, Term.cmpCode a b ≠ .eq → Term.cmpCode b a ≠ .eq :=
    fun hne heq => hne (Std.OrientedCmp.eq_symm heq)
  exact List.pairwise_map.mp ((hp.pairwise_iff hsymm).mpr hcodes)

theorem Differ.of_sorted {ts : List Term} (h : ts.Pairwise fun a b => a.cmp b = .lt) : Differ ts :=
  h.imp fun h heq => by rw [h] at heq; cases heq

theorem perm_addAll {ts l : List Term} (h : Differ (l ++ ts)) : (addAll ts l).Perm (l ++ ts) :=
  SortedList.perm_foldl (R := fun a b : Term => a.cmp b ≠ .eq)
    (fun hne heq => hne (Std.OrientedCmp.eq_symm heq))
    (fun _ _ hl => SortedList.perm_addNew fun b hb heq => hl b hb (Std.OrientedCmp.eq_symm heq)) h

theorem sorted_addAll {ts : List Term} : ∀ {l : List Term},
    (l.Pairwise fun a b => a.cmp b = .lt) → (addAll ts l).Pairwise fun a b => a.cmp b = .lt := by
  induction ts with
  | nil => exact id
  | cons t ts ih => exact fun h => ih (SortedList.pairwise_addNew t h)

/-- More than a single unknown part makes a set. -/
theorem build_of_many {p : SetParts} (h : (p.elements.isEmpty && p.base.length == 1) = false) :
    p.build = Term.new (.set p.ops p.elements (SortedList.sort Term.cmp p.base)) := by
  unfold build
  split
  · rename_i hnil hone
    rw [hnil, hone] at h
    cases h
  · rfl

/-- A set with the elements of `s`, and with the unknown parts of `s`, is `s`. -/
theorem always_build {p : SetParts} {s : Term} {es base : List Term}
    (hs : s.node = .set p.ops es base) (hn : isNormal { ops := p.ops, elements := es, base })
    (hsorted : p.elements.Pairwise fun a b => a.cmp b = .lt)
    (he : (p.elements.map Term.code).Perm (es.map Term.code))
    (hb : (p.base.map Term.code).Perm (base.map Term.code)) : Always p.build (· == s) := by
  simp only [isNormal, Bool.and_eq_true, decide_eq_true_eq, Bool.not_eq_true'] at hn
  obtain ⟨⟨⟨helements, hbase⟩, -⟩, hmany⟩ := hn
  have hes : p.elements.length = es.length := by simpa using he.length_eq
  have hbs : p.base.length = base.length := by simpa using hb.length_eq
  have hbuild : p.build = Term.new (.set p.ops p.elements (SortedList.sort Term.cmp p.base)) :=
    build_of_many (by rwa [PairedLists.isEmpty_of_length hes, hbs])
  have hle : ∀ {a b : Term}, a.cmp b = .lt → (a.cmp b).isLE := fun h => by rw [h]; rfl
  have hparts : ((SortedList.sort Term.cmp p.base).map Term.code).Perm (base.map Term.code) :=
    ((SortedList.perm_sort p.base).map _).trans hb
  rw [hbuild]
  refine (Term.always_new _).mono fun t ht => Term.beq_of_alike ?_
  rw [ht, hs]
  exact .set (Term.equal_of_sorted he (hsorted.imp hle) (helements.imp hle))
    (Term.equal_of_sorted hparts (SortedList.sorted_sort _) hbase)

/-- The elements and unknown parts that a term brings to a set of `ops`. -/
inductive Brings (ops : CollectionOps) (t : Term) : List Term → List Term → Prop where
  | set {es base : List Term} (hn : t.node = .set ops es base) : Brings ops t es base
  | part (ht : isPart ops t) : Brings ops t [] [t]

theorem concat_of_brings {p : SetParts} {t : Term} {es base : List Term}
    (h : Brings p.ops t es base) :
    p.concat t = { p with elements := addAll es p.elements, base := p.base ++ base } := by
  cases h with
  | set hn =>
    unfold concat
    rw [hn]
    simp only [if_true]
    rw [foldl_add]
  | part ht => exact concat_part ht

theorem isPart_congr {ops : CollectionOps} {t u : Term} (h : t == u) : isPart ops t = isPart ops u := by
  have halike := Term.alike_of_beq h
  rw [isPart, isPart, CollectionOps.isUnit_congr h, Term.isSetOf, Term.isSetOf]
  generalize t.node = m, u.node = n at halike
  cases halike <;> rfl

theorem Brings.congr {ops : CollectionOps} {t u : Term} {es base : List Term} (htu : t == u)
    (h : Brings ops u es base) :
    ∃ es' base', Brings ops t es' base' ∧ Term.Equal es' es ∧ Term.Equal base' base := by
  cases h with
  | set hn =>
    have halike := Term.alike_of_beq htu
    rw [hn] at halike
    generalize hm : t.node = m at halike
    cases halike with
    | set he hb => exact ⟨_, _, .set hm, he, hb⟩
  | part ht => exact ⟨[], [t], .part (by rwa [isPart_congr htu]), .nil, .cons htu .nil⟩

/-- What is left of a set is its only part or a set of what is left. -/
theorem returns_rest {ops : CollectionOps} {elements base : List Term}
    (hsorted : elements.Pairwise fun a b => a.cmp b = .lt) (hbase : ∀ t ∈ base, isPart ops t) :
    Returns (fun r => (elements = [] ∧ base = [r]) ∨ ∃ parts : List Term,
        r.node = .set ops elements parts ∧ parts.Perm base ∧ isNormal { ops, elements, base := parts })
      (base.foldl concat { ops, elements }).build := by
  rw [foldl_concat_parts hbase, build]
  split
  · exact .pure (.inl ⟨‹_›, ‹_›⟩)
  · rename_i hone
    rw [List.nil_append] at hone ⊢
    have hperm : (SortedList.sort Term.cmp base).Perm base := SortedList.perm_sort base
    refine (Term.returns_new _).mono fun r hr => .inr ⟨_, hr, hperm, ?_⟩
    have hmany : (elements.isEmpty && (SortedList.sort Term.cmp base).length == 1) = false := by
      rw [hperm.length_eq, Bool.and_eq_false_iff]
      by_contra h
      push Not at h
      obtain ⟨t, ht⟩ := List.length_eq_one_iff.mp (by simpa using h.2)
      exact hone t (by simpa using h.1) ht
    simp only [isNormal, hmany, Bool.and_eq_true, decide_eq_true_eq, List.all_eq_true]
    exact ⟨⟨⟨hsorted, SortedList.sorted_sort base⟩, fun t ht => hbase t (SortedList.mem_sort.mp ht)⟩, rfl⟩

theorem rebuild_eq {ops : CollectionOps} {t : Term} {elements es base bs fs : List Term}
    (hn : t.node = .set ops elements base) (hlen : es.length = elements.length) :
    t.rebuild (es ++ bs) fs = (bs.foldl concat { ops, elements := addAll es [] }).build := by
  unfold Term.rebuild
  rw [hn]
  simp only [List.splitAt_eq]
  rw [← hlen, List.take_left, List.drop_left, foldl_add]

/-- A set is made again from elements and from what brings the other elements and the unknown
parts. -/
theorem always_rebuild {ops : CollectionOps} {t s : Term}
    {elements es used rest base base' bs parts cs fs : List Term}
    (hn : t.node = .set ops elements base') (hs : s.node = .set ops es base)
    (hnormal : isNormal { ops, elements := es, base }) (hlen : used.length = elements.length)
    (hes : es.Perm (used ++ rest)) (hbase : parts.Perm base)
    (hbs : (bs = [] ∧ rest = [] ∧ parts = []) ∨ ∃ r, bs = [r] ∧ Brings ops r rest parts)
    (hcs : Term.Equal cs (used ++ bs)) : Always (t.rebuild cs fs) (· == s) := by
  obtain ⟨used', bs', rfl, hused, hbs'⟩ := hcs.exists_append
  have hsorted : es.Pairwise fun a b => a.cmp b = .lt := by
    simp only [isNormal, Bool.and_eq_true, decide_eq_true_eq] at hnormal
    exact hnormal.1.1.1
  rw [rebuild_eq hn (hused.length_eq.trans hlen)]
  -- the elements and parts that there are in the end, up to equality
  obtain ⟨rest', parts', hconcat, hrest, hparts⟩ : ∃ rest' parts',
      bs'.foldl concat { ops, elements := addAll used' [] } =
        { ops, elements := addAll rest' (addAll used' []), base := parts' } ∧
      Term.Equal rest' rest ∧ Term.Equal parts' parts := by
    rcases hbs with ⟨rfl, rfl, rfl⟩ | ⟨r, rfl, hr⟩
    · cases hbs'
      exact ⟨[], [], rfl, .nil, .nil⟩
    · cases hbs' with
      | @cons r' _ _ _ hrr h =>
      cases h
      obtain ⟨rest', parts', hr', hrest, hparts⟩ := hr.congr hrr
      refine ⟨rest', parts', ?_, hrest, hparts⟩
      rw [List.foldl_cons, List.foldl_nil, concat_of_brings (p := ⟨ops, _, _⟩) hr', List.nil_append]
  have hcodes : ((used' ++ rest').map Term.code).Perm (es.map Term.code) := by
    rw [Term.equal_iff.mp (hused.append hrest)]
    exact (hes.map _).symm
  have hdiffer : Differ (used' ++ rest') := .of_perm hcodes (.of_sorted hsorted)
  have hperm₁ : (addAll used' []).Perm used' :=
    perm_addAll (l := []) (List.pairwise_append.mp hdiffer).1
  have hperm₂ : (addAll rest' (addAll used' [])).Perm (used' ++ rest') := by
    refine (perm_addAll ?_).trans (hperm₁.append_right rest')
    exact .of_perm ((hperm₁.append_right rest').map _) hdiffer
  rw [hconcat]
  refine always_build hs hnormal (sorted_addAll (sorted_addAll .nil)) ?_ ?_
  · exact (hperm₂.map _).trans hcodes
  · rw [Term.equal_iff.mp hparts]
    exact hbase.map _

end SetParts

end RuleCompiler
