import Mathlib.Data.List.Perm.Basic
import RuleCompiler.Proofs.Builder.Entries
import RuleCompiler.Proofs.Builder.Set

/-! # Sets of any entries

A set is known by its entries, which are elements and parts that are not known yet. It does not matter in which
order they are, nor how often an element is among them. Terms that are put together to a set put together
their entries. -/

namespace RuleCompiler

open Build (Always)
open Term (Equal)

/-! ### Elements -/

namespace SetParts
variable {ts us : List Term}

/-- Up to equality a set holds what it was given. -/
theorem mem_codes_addAll {code : List Symbol} (ts : List Term) : ∀ {l : List Term},
    code ∈ (addAll ts l).map Term.code ↔ code ∈ l.map Term.code ∨ code ∈ ts.map Term.code := by
  induction ts with
  | nil => simp [addAll]
  | cons t ts ih =>
    intro l
    have hstep : addAll (t :: ts) l = addAll ts (SortedList.addNew Term.cmp t l) := rfl
    have hcode (a b : Term) (h : a.cmp b = .eq) : a.code = b.code := Term.beq_iff.mp (Term.cmp_eq_iff.mp h)
    rw [hstep, ih, SortedList.mem_map_addNew hcode, List.map_cons, List.mem_cons]
    tauto

/-- Equal elements are added to the same places in any order. -/
theorem equal_addAll (h : ∀ code, code ∈ ts.map Term.code ↔ code ∈ us.map Term.code) :
    Equal (addAll ts []) (addAll us []) := by
  have hsorted (ts : List Term) : (addAll ts []).Pairwise fun a b => a.cmp b = .lt := sorted_addAll .nil
  have hle : ∀ {a b : Term}, a.cmp b = .lt → (a.cmp b).isLE := fun h => by rw [h]; rfl
  have hnodup (ts : List Term) : ((addAll ts []).map Term.code).Nodup := by
    refine List.pairwise_map.mpr ((hsorted ts).imp fun {a b} hlt heq => ?_)
    rw [Term.cmp_eq_iff.mpr (Term.beq_iff.mpr heq)] at hlt
    cases hlt
  refine Term.equal_of_sorted ?_ ((hsorted ts).imp hle) ((hsorted us).imp hle)
  refine (List.perm_ext_iff_of_nodup (hnodup ts) (hnodup us)).mpr fun code => ?_
  rw [mem_codes_addAll, mem_codes_addAll, h]

end SetParts

/-! ### Entries -/

namespace Entry

def items (w : List Entry) : List Term := w.filterMap fun | item t => some t | part _ => none

def parts (w : List Entry) : List Term := w.filterMap fun | item _ => none | part t => some t

/-- Whether sets have the same entries: equal items, whichever and how many there are, and equal parts in
any order. -/
structure SameInSets (w w' : List Entry) : Prop where
  items : ∀ code, code ∈ (items w).map Term.code ↔ code ∈ (items w').map Term.code
  parts : ((parts w).map Term.code).Perm ((parts w').map Term.code)

variable {w w' w'' : List Entry}

@[simp] theorem items_map_item (ts : List Term) : items (ts.map item) = ts := by
  simp [items, List.filterMap_map]

@[simp] theorem parts_map_item (ts : List Term) : parts (ts.map item) = [] := by
  simp [parts]

@[simp] theorem items_map_part (ts : List Term) : items (ts.map part) = [] := by
  simp [items]

@[simp] theorem parts_map_part (ts : List Term) : parts (ts.map part) = ts := by
  simp [parts, List.filterMap_map]

@[simp] theorem items_append (w w' : List Entry) : items (w ++ w') = items w ++ items w' := by
  simp [items]

@[simp] theorem parts_append (w w' : List Entry) : parts (w ++ w') = parts w ++ parts w' := by
  simp [parts]

theorem mem_items {t : Term} : t ∈ items w ↔ .item t ∈ w := by
  simp only [items, List.mem_filterMap]
  constructor
  · rintro ⟨_ | _, he, h⟩ <;> simp_all
  · intro h
    exact ⟨_, h, rfl⟩

theorem mem_parts {t : Term} : t ∈ parts w ↔ .part t ∈ w := by
  simp only [parts, List.mem_filterMap]
  constructor
  · rintro ⟨_ | _, he, h⟩ <;> simp_all
  · intro h
    exact ⟨_, h, rfl⟩

theorem eq_singleton {t : Term} (hitems : items w = []) (hparts : parts w = [t]) : w = [.part t] := by
  cases w with
  | nil => cases hparts
  | cons e w =>
    cases e with
    | item u => cases hitems
    | part u =>
      obtain ⟨rfl, hparts⟩ := List.cons.inj hparts
      cases w with
      | nil => rfl
      | cons e w => cases e <;> simp_all [items]

namespace SameInSets

theorem refl (w : List Entry) : SameInSets w w := ⟨fun _ => Iff.rfl, .refl _⟩

theorem symm (h : SameInSets w w') : SameInSets w' w := ⟨fun code => (h.items code).symm, h.parts.symm⟩

theorem trans (h : SameInSets w w') (h' : SameInSets w' w'') : SameInSets w w'' :=
  ⟨fun code => (h.items code).trans (h'.items code), h.parts.trans h'.parts⟩

theorem of_alike (h : List.Forall₂ Alike w w') : SameInSets w w' := by
  have hcodes : (Entry.items w).map Term.code = (Entry.items w').map Term.code ∧
      (Entry.parts w).map Term.code = (Entry.parts w').map Term.code := by
    induction h with
    | nil => exact ⟨rfl, rfl⟩
    | cons h _ ih =>
      cases h with
      | item h | part h => simpa [Entry.items, Entry.parts, Term.beq_iff.mp h] using ih
  exact ⟨fun code => by rw [hcodes.1], by rw [hcodes.2]⟩

theorem append {v v' : List Entry} (h : SameInSets w w') (h' : SameInSets v v') :
    SameInSets (w ++ v) (w' ++ v') := by
  refine ⟨fun code => ?_, ?_⟩
  · simp only [items_append, List.map_append, List.mem_append, h.items code, h'.items code]
  · simp only [parts_append, List.map_append]
    exact h.parts.append h'.parts

theorem flatMap_left {α : Type} {f g : α → List Entry} : ∀ {as : List α}, (∀ a ∈ as, SameInSets (f a) (g a)) →
    SameInSets (as.flatMap f) (as.flatMap g)
  | [], _ => .refl []
  | a :: as, h => by
    obtain ⟨ha, has⟩ := List.forall_mem_cons.mp h
    exact ha.append (flatMap_left has)

/-- Equal codes in any order belong to equal terms in any order. -/
theorem exists_perm {ts us : List Term} (h : (ts.map Term.code).Perm (us.map Term.code)) :
    ∃ vs, ts.Perm vs ∧ Equal vs us := by
  have hcodes : List.Forall₂ (fun (t : Term) c => t.code = c) ts (ts.map Term.code) :=
    List.forall₂_map_right_iff.mpr (List.forall₂_same.mpr fun _ _ => rfl)
  have hcomp : Relation.Comp (List.Forall₂ fun (t : Term) c => t.code = c) List.Perm ts (us.map Term.code) :=
    ⟨_, hcodes, h⟩
  rw [List.forall₂_comp_perm_eq_perm_comp_forall₂] at hcomp
  obtain ⟨vs, hperm, hvs⟩ := hcomp
  exact ⟨vs, hperm, (List.forall₂_map_right_iff.mp hvs).imp fun _ _ h => Term.beq_iff.mpr h⟩

section FlatMap
variable {f : Term → Term} {g : Term → List Entry} {F : Entry → List Entry}
  (hitem : ∀ t, F (.item t) = [.item (f t)]) (hpart : ∀ t, F (.part t) = g t)
include hitem hpart

theorem items_flatMap (w : List Entry) (code : List Symbol) : code ∈ (Entry.items (w.flatMap F)).map Term.code ↔
    (∃ t ∈ Entry.items w, (f t).code = code) ∨ ∃ t ∈ Entry.parts w, code ∈ (Entry.items (g t)).map Term.code := by
  induction w with
  | nil => simp [Entry.items, Entry.parts]
  | cons e w ih =>
    rw [List.flatMap_cons, items_append, List.map_append, List.mem_append, ih]
    cases e with
    | item t => simp [hitem, Entry.items, Entry.parts, eq_comm, or_assoc]
    | part t => simp [hpart, Entry.items, Entry.parts, or_left_comm]

theorem parts_flatMap (w : List Entry) :
    Entry.parts (w.flatMap F) = (Entry.parts w).flatMap fun t => Entry.parts (g t) := by
  induction w with
  | nil => rfl
  | cons e w ih =>
    rw [List.flatMap_cons, parts_append, ih]
    cases e with
    | item t => simp [hitem, Entry.parts]
    | part t => simp [hpart, Entry.parts]

/-- What entries bring, each element another one, is the same if they are. -/
theorem flatMap (hf : ∀ {t u}, t == u → f t == f u) (hg : ∀ {t u}, t == u → SameInSets (g t) (g u))
    (h : SameInSets w w') : SameInSets (w.flatMap F) (w'.flatMap F) := by
  -- each side has what the other one has
  have hsub {w w' : List Entry} (h : SameInSets w w') (code : List Symbol)
      (hcode : code ∈ (Entry.items (w.flatMap F)).map Term.code) :
      code ∈ (Entry.items (w'.flatMap F)).map Term.code := by
    rw [items_flatMap hitem hpart] at hcode ⊢
    rcases hcode with ⟨t, ht, rfl⟩ | ⟨t, ht, hcode⟩
    · obtain ⟨u, hu, hut⟩ := List.mem_map.mp ((h.items _).mp (List.mem_map_of_mem ht))
      exact .inl ⟨u, hu, Term.beq_iff.mp (hf (Term.beq_iff.mpr hut))⟩
    · obtain ⟨u, hu, hut⟩ := List.mem_map.mp (h.parts.mem_iff.mp (List.mem_map_of_mem ht))
      exact .inr ⟨u, hu, ((hg (Term.beq_iff.mpr hut)).items code).mpr hcode⟩
  refine ⟨fun code => ⟨hsub h code, hsub h.symm code⟩, ?_⟩
  rw [parts_flatMap hitem hpart, parts_flatMap hitem hpart, List.map_flatMap, List.map_flatMap]
  obtain ⟨vs, hperm, hvs⟩ := exists_perm h.parts
  refine (hperm.flatMap_right _).trans ?_
  clear hperm
  generalize Entry.parts w' = us at hvs
  induction hvs with
  | nil => exact .refl _
  | cons ht _ ih => exact (hg ht).parts.append (ih)

end FlatMap

end SameInSets

end Entry

/-! ### Building -/

namespace SetParts
variable {p : SetParts}

/-- What `build` makes of the parts, in nodes without numbers. -/
def whole (p : SetParts) : Term :=
  match p.elements, p.base with
  | [], [t] => t
  | elements, base => .canonical (.set p.ops elements (SortedList.sort Term.cmp base))

theorem whole_of_many (h : ¬(p.elements = [] ∧ ∃ t, p.base = [t])) :
    p.whole = .canonical (.set p.ops p.elements (SortedList.sort Term.cmp p.base)) := by
  unfold whole
  split
  · exact absurd ⟨‹_›, _, ‹_›⟩ h
  · rfl

theorem always_build_whole (p : SetParts) : Always p.build (· == p.whole) := by
  obtain ⟨ops, elements, base⟩ := p
  have hnew : Always (Term.new (.set ops elements (SortedList.sort Term.cmp base)))
      (· == .canonical (.set ops elements (SortedList.sort Term.cmp base))) :=
    (Term.always_new _).mono fun t ht => Term.beq_of_alike (ht ▸ .set (Equal.refl _) (Equal.refl _))
  rcases elements with _ | ⟨_, _⟩
  · rcases base with _ | ⟨t, _ | _⟩
    · exact hnew
    · exact .pure BEq.rfl
    · exact hnew
  · exact hnew

end SetParts

namespace Term
variable {ops : CollectionOps} {t u : Term} {w w' : List Entry}

/-- The entries of the term as a part of a set of `ops`. -/
def setEntries (ops : CollectionOps) (t : Term) : List Entry :=
  match t.node with
  | .set ops' es base => if ops' = ops then es.map .item ++ base.map .part else [.part t]
  | _ => if ops.isUnit t then [] else [.part t]

/-- The set of some entries. -/
def setOf (ops : CollectionOps) (w : List Entry) : Term :=
  SetParts.whole { ops, elements := SetParts.addAll (Entry.items w) [], base := Entry.parts w }

theorem node_of_isSetOf (h : t.isSetOf ops) : ∃ es base, t.node = .set ops es base := by
  unfold isSetOf at h
  split at h
  · rename_i hn
    exact ⟨_, _, of_decide_eq_true h ▸ hn⟩
  · cases h

theorem isSetOf_congr (h : t == u) : t.isSetOf ops = u.isSetOf ops := by
  have h := alike_of_beq h
  rw [isSetOf, isSetOf]
  generalize t.node = m, u.node = n at h
  cases h <;> rfl

theorem setEntries_of_set {es base : List Term} (hn : t.node = .set ops es base) :
    t.setEntries ops = es.map .item ++ base.map .part := by
  rw [setEntries, hn]
  exact if_pos rfl

theorem setEntries_of_not_set (h : t.isSetOf ops = false) :
    t.setEntries ops = if ops.isUnit t then [] else [.part t] := by
  rw [setEntries]
  split
  · rename_i hn
    rw [isSetOf, hn, decide_eq_false_iff_not] at h
    rw [if_neg h, CollectionOps.isUnit, hn]
    rfl
  · rfl

theorem setEntries_congr (h : t == u) : List.Forall₂ Entry.Alike (t.setEntries ops) (u.setEntries ops) := by
  have hself : List.Forall₂ Entry.Alike [.part t] [.part u] := .cons (.part h) .nil
  have hunit : List.Forall₂ Entry.Alike (if ops.isUnit t then [] else [.part t])
      (if ops.isUnit u then [] else [.part u]) := by
    rw [CollectionOps.isUnit_congr h]
    split
    · exact .nil
    · exact hself
  have halike := alike_of_beq h
  rw [setEntries, setEntries]
  generalize t.node = m, u.node = n at halike
  cases halike with
  | set he hb =>
    dsimp only
    split
    · refine List.rel_append (ListParts.forall₂_items he) ?_
      exact List.forall₂_map_left_iff.mpr (List.forall₂_map_right_iff.mpr (hb.imp fun _ _ h => .part h))
    · exact hself
  | _ => exact hunit

/-- A set is its only part, or a node of its own. -/
theorem setOf_cases (ops : CollectionOps) (w : List Entry) : (∃ t, w = [.part t] ∧ setOf ops w = t) ∨
    setOf ops w = canonical (.set ops (SetParts.addAll (Entry.items w) []) (SortedList.sort cmp (Entry.parts w))) := by
  unfold setOf SetParts.whole
  split
  · rename_i t hnone hone
    refine .inl ⟨t, Entry.eq_singleton ?_ hone, rfl⟩
    refine List.eq_nil_iff_forall_not_mem.mpr fun u hu => ?_
    have hcode : u.code ∈ (SetParts.addAll (Entry.items w) []).map Term.code :=
      (SetParts.mem_codes_addAll _).mpr (.inr (List.mem_map_of_mem hu))
    dsimp only at hnone
    rw [hnone] at hcode
    cases hcode
  · exact .inr rfl

/-- The set of some entries has these entries. -/
theorem sameInSets_setOf (h : ∀ t, .part t ∈ w → SetParts.isPart ops t) :
    Entry.SameInSets ((setOf ops w).setEntries ops) w := by
  rcases setOf_cases ops w with ⟨t, rfl, hset⟩ | hset
  · have ht := h t List.mem_cons_self
    rw [SetParts.isPart, Bool.and_eq_true, Bool.not_eq_true', Bool.not_eq_true'] at ht
    rw [hset, setEntries_of_not_set ht.1, ht.2]
    exact .refl _
  · rw [hset, setEntries_of_set rfl]
    refine ⟨fun code => ?_, ?_⟩
    · simp [SetParts.mem_codes_addAll]
    · simpa using (SortedList.perm_sort (Entry.parts w)).map code

theorem setOf_congr (h : Entry.SameInSets w w') : setOf ops w == setOf ops w' := by
  have hes := SetParts.equal_addAll h.items
  have hlen := h.parts.length_eq
  simp only [List.length_map] at hlen
  by_cases hlone : SetParts.addAll (Entry.items w) [] = [] ∧ ∃ t, Entry.parts w = [t]
  · obtain ⟨hnil, t, ht⟩ := hlone
    obtain ⟨u, hu⟩ := List.length_eq_one_iff.mp (hlen.symm.trans (congrArg List.length ht))
    have hparts := h.parts
    rw [ht, hu, List.map_singleton, List.map_singleton, List.perm_singleton, List.cons.injEq] at hparts
    have hnil' : SetParts.addAll (Entry.items w') [] = [] := List.forall₂_nil_left_iff.mp (hnil ▸ hes)
    simp only [setOf, SetParts.whole, hnil, hnil', ht, hu]
    exact beq_iff.mpr hparts.1
  · have hlone' : ¬(SetParts.addAll (Entry.items w') [] = [] ∧ ∃ t, Entry.parts w' = [t]) := by
      rwa [← List.length_eq_zero_iff, ← hes.length_eq, List.length_eq_zero_iff, ← List.length_eq_one_iff, ← hlen,
        List.length_eq_one_iff]
    rw [setOf, setOf, SetParts.whole_of_many hlone, SetParts.whole_of_many hlone']
    exact beq_of_alike (.set hes (equal_sort h.parts))

end Term

end RuleCompiler
