import RuleCompiler.Proofs.Builder.Canonical
import RuleCompiler.Proofs.Builder.Chunks

/-! # Kinds of collections

What sequences, lists and sets have in common: each is known by its entries, is put together from terms that
bring entries, and brings its own entries where it is put into another one of its kind. Only a lone entry and
the unit of a user operator stand for a collection that is no node of its own. -/

namespace RuleCompiler

open Build (Always)
open Term (Equal)

namespace Entry

def map (f : Term → Term) : Entry → Entry
  | item t => item (f t)
  | part t => part (f t)

@[simp] theorem term_map (f : Term → Term) (e : Entry) : (e.map f).term = f e.term := by cases e <;> rfl

@[simp] theorem map_map (f g : Term → Term) (e : Entry) : (e.map f).map g = e.map fun t => g (f t) := by
  cases e <;> rfl

theorem Alike.map {f g : Term → Term} {e e' : Entry} (h : e.Alike e') (hfg : f e.term == g e'.term) :
    (e.map f).Alike (e'.map g) := by
  cases h with
  | item _ => exact .item hfg
  | part _ => exact .part hfg

theorem forall₂_trans {u v w : List Entry} (h : List.Forall₂ Alike u v) (h' : List.Forall₂ Alike v w) :
    List.Forall₂ Alike u w :=
  PairedLists.comp (R := Alike) (Q := Alike) (T := Alike) (fun _ _ _ h h' => h.trans h') h h'

end Entry

/-- A sequence is its only item, or a node of its own. -/
theorem Term.sequenceOf_lone_or_seq (w : List Term) :
    (∃ t, w = [t] ∧ sequenceOf w == t) ∨ SequenceParts.isPlain (sequenceOf w) = false := by
  have hitems := SequenceParts.equal_ofItems w
  rw [sequenceOf]
  generalize SequenceParts.ofItems w = p at hitems
  unfold SequenceParts.whole
  split
  · cases hitems with
    | cons h hnil =>
      cases hnil
      exact .inl ⟨_, rfl, h⟩
  · cases hitems with
    | cons h hnil =>
      cases hnil
      exact .inl ⟨_, rfl, h⟩
  · exact .inr rfl

/-- The kinds of collections that keep their entries in order, or elements and parts of a set. -/
inductive Collection where
  | sequence
  | list (ops : CollectionOps)
  | set (ops : CollectionOps)

namespace Collection

/-- The kind of collection that the node is. -/
def of? (t : Term) : Option Collection :=
  match t.node with
  | .seq .. => some sequence
  | .list ops .. => some (list ops)
  | .set ops .. => some (set ops)
  | _ => none

/-- Whether the term is the constant that stands for the empty collection. -/
def isUnit : Collection → Term → Bool
  | sequence, _ => false
  | list ops, t | set ops, t => ops.isUnit t

/-- Whether items stand in a wrapper, so that they are not opened up. -/
def isWrapped : Collection → Bool
  | sequence => false
  | list ops => !ops.isOperator
  | set _ => true

/-- The entries that the term brings to a collection of this kind. -/
def contents : Collection → Term → List Entry
  | sequence, t => t.sequenceItems.map .item
  | list ops, t => t.entries ops
  | set ops, t => t.setEntries ops

/-- The collection of some entries. -/
def whole : Collection → List Entry → Term
  | sequence, w => Term.sequenceOf (w.map Entry.term)
  | list ops, w => Term.listOfEntries ops w
  | set ops, w => Term.setOf ops w

/-- Whether the collection keeps the entry as it is. -/
def keeps : Collection → Entry → Bool
  | sequence, .item t => SequenceParts.isPlain t
  | sequence, .part _ => false
  | list ops, e => e.fits ops
  | set _, .item _ => true
  | set ops, .part t => SetParts.isPart ops t

/-- Whether collections have the same entries. -/
def Same : Collection → List Entry → List Entry → Prop
  | set _, w, w' => Entry.SameInSets w w'
  | sequence, w, w' | list _, w, w' => List.Forall₂ Entry.Alike w w'

/-- The entry that a term is which is neither such a collection nor its unit. -/
def entryOf : Collection → Term → Entry
  | sequence, t => .item t
  | list ops, t => ListParts.entryOf ops t
  | set _, t => .part t

/-- The entries that an entry brings when it is put in again. -/
def brings (k : Collection) : Entry → List Entry
  | .item t => if k.isWrapped then [.item t] else k.contents t
  | .part t => k.contents t

/-- The entries that there are once every term has become another one. -/
def act (k : Collection) (f : Term → Term) (w : List Entry) : List Entry := w.flatMap fun e => k.brings (e.map f)

variable {k : Collection} {t u : Term} {e e' : Entry} {w w' w'' : List Entry}

/-! ### The same entries -/

namespace Same

theorem refl (k : Collection) (w : List Entry) : k.Same w w := by
  cases k with
  | set _ => exact Entry.SameInSets.refl w
  | sequence | list _ => exact List.forall₂_same.mpr fun e _ => .refl e

theorem symm (h : k.Same w w') : k.Same w' w := by
  cases k with
  | set _ => exact Entry.SameInSets.symm h
  | sequence | list _ => exact List.Forall₂.flip (List.Forall₂.imp (fun _ _ => Entry.Alike.symm) h)

theorem trans (h : k.Same w w') (h' : k.Same w' w'') : k.Same w w'' := by
  cases k with
  | set _ => exact Entry.SameInSets.trans h h'
  | sequence | list _ => exact Entry.forall₂_trans h h'

theorem of_alike (h : List.Forall₂ Entry.Alike w w') : k.Same w w' := by
  cases k with
  | set _ => exact .of_alike h
  | sequence | list _ => exact h

theorem append {v v' : List Entry} (h : k.Same w w') (h' : k.Same v v') : k.Same (w ++ v) (w' ++ v') := by
  cases k with
  | set _ => exact Entry.SameInSets.append h h'
  | sequence | list _ => exact List.rel_append h h'

theorem flatMap {α β : Type} {f : α → List Entry} {g : β → List Entry} {as : List α} {bs : List β}
    (h : List.Forall₂ (fun a b => k.Same (f a) (g b)) as bs) : k.Same (as.flatMap f) (bs.flatMap g) := by
  induction h with
  | nil => exact refl k []
  | cons h _ ih => exact h.append ih

/-- Whatever entry the one has, the other one has too. -/
theorem exists_mem (h : k.Same w w') (he : e ∈ w) : ∃ e' ∈ w', e.Alike e' := by
  cases k with
  | sequence | list _ => exact PairedLists.exists_mem h he
  | set _ =>
    cases e with
    | item t =>
      obtain ⟨u, hu, hut⟩ := List.mem_map.mp ((h.items _).mp (List.mem_map_of_mem (Entry.mem_items.mpr he)))
      exact ⟨.item u, Entry.mem_items.mp hu, .item (Term.beq_iff.mpr hut.symm)⟩
    | part t =>
      obtain ⟨u, hu, hut⟩ := List.mem_map.mp (h.parts.mem_iff.mp (List.mem_map_of_mem (Entry.mem_parts.mpr he)))
      exact ⟨.part u, Entry.mem_parts.mp hu, .part (Term.beq_iff.mpr hut.symm)⟩

end Same

/-! ### Equal terms -/

theorem of?_congr (h : t == u) : of? t = of? u := by
  have h := Term.alike_of_beq h
  rw [of?, of?]
  generalize t.node = m, u.node = n at h
  cases h <;> rfl

theorem contents_congr (h : t == u) : List.Forall₂ Entry.Alike (k.contents t) (k.contents u) := by
  cases k with
  | sequence => exact ListParts.forall₂_items (Term.sequenceItems_congr h)
  | list ops => exact Term.entries_congr h
  | set ops => exact Term.setEntries_congr h

theorem keeps_congr (h : e.Alike e') : k.keeps e = k.keeps e' := by
  cases k with
  | sequence =>
    cases h with
    | item h => exact SequenceParts.isPlain_congr h
    | part h => rfl
  | list ops => exact ListParts.fits_congr h
  | set ops =>
    cases h with
    | item h => rfl
    | part h => exact congrArg₂ (fun a b => !a && !b) (Term.isSetOf_congr h) (CollectionOps.isUnit_congr h)

theorem whole_congr (h : k.Same w w') : k.whole w == k.whole w' := by
  cases k with
  | sequence =>
    refine Term.sequenceOf_congr ?_
    exact List.forall₂_map_left_iff.mpr (List.forall₂_map_right_iff.mpr (List.Forall₂.imp (fun _ _ h => h.term) h))
  | list ops => exact Term.listOfEntries_congr h
  | set ops => exact Term.setOf_congr h

theorem brings_congr (h : e.Alike e') : List.Forall₂ Entry.Alike (k.brings e) (k.brings e') := by
  cases h with
  | item h =>
    cases hk : k.isWrapped with
    | true => simpa [brings, hk] using Entry.Alike.item h
    | false => simpa [brings, hk] using contents_congr h
  | part h => exact contents_congr h

/-- Equal entries whose terms become equal ones bring the same. -/
theorem act_congr {f g : Term → Term} (h : List.Forall₂ (fun e e' => e.Alike e' ∧ f e.term == g e'.term) w w') :
    k.Same (k.act f w) (k.act g w') :=
  .flatMap (h.imp fun _ _ h => .of_alike (brings_congr (h.1.map h.2)))

/-- The same entries become the same ones. -/
theorem act_same {f : Term → Term} (hf : ∀ {t u}, t == u → f t == f u) (h : k.Same w w') :
    k.Same (k.act f w) (k.act f w') := by
  cases k with
  | sequence | list _ => exact act_congr (List.Forall₂.imp (fun _ _ h => ⟨h, hf h.term⟩) h)
  | set ops =>
    exact Entry.SameInSets.flatMap (g := fun t => (f t).setEntries ops) (fun _ => rfl) (fun _ => rfl) hf
      (fun h => .of_alike (Term.setEntries_congr (hf h))) h

/-! ### Nodes -/

theorem of?_eq_sequence : of? t = some sequence ↔ SequenceParts.isPlain t = false := by
  rw [of?, SequenceParts.isPlain]
  cases t.node <;> simp

theorem of?_eq_list {ops : CollectionOps} : of? t = some (list ops) ↔ t.isListOf ops := by
  rw [of?, Term.isListOf]
  cases t.node <;> simp

theorem of?_eq_set {ops : CollectionOps} : of? t = some (set ops) ↔ t.isSetOf ops := by
  rw [of?, Term.isSetOf]
  cases t.node <;> simp

theorem contents_of_ne (h : of? t ≠ some k) : k.contents t = if k.isUnit t then [] else [k.entryOf t] := by
  cases k with
  | sequence =>
    rw [ne_eq, of?_eq_sequence, Bool.not_eq_false] at h
    rw [contents, SequenceParts.sequenceItems_of_isPlain h]
    rfl
  | list ops =>
    rw [ne_eq, of?_eq_list, Bool.not_eq_true] at h
    exact Term.entries_of_not_list h
  | set ops =>
    rw [ne_eq, of?_eq_set, Bool.not_eq_true] at h
    exact Term.setEntries_of_not_set h

@[simp] theorem term_entryOf (k : Collection) (t : Term) : (k.entryOf t).term = t := by
  cases k with
  | list ops =>
    show (ListParts.entryOf ops t).term = t
    unfold ListParts.entryOf
    split <;> rfl
  | _ => rfl

/-- Whether the entry is opened up when it is put in again. -/
def IsOpened (k : Collection) (e : Entry) : Prop := k.isWrapped → ∃ t, e = .part t

theorem IsOpened.brings (h : k.IsOpened e) : k.brings e = k.contents e.term := by
  cases e with
  | part t => rfl
  | item t => exact if_neg fun hk => by simpa using h hk

theorem IsOpened.brings_map (h : k.IsOpened e) (f : Term → Term) : k.brings (e.map f) = k.contents (f e.term) := by
  have hmap : k.IsOpened (e.map f) := fun hk => by
    obtain ⟨t, rfl⟩ := h hk
    exact ⟨f t, rfl⟩
  rw [hmap.brings, Entry.term_map]

theorem isOpened_entryOf (k : Collection) (t : Term) : k.IsOpened (k.entryOf t) := by
  intro hk
  cases k with
  | sequence => cases hk
  | set ops => exact ⟨t, rfl⟩
  | list ops => exact ⟨t, if_pos (by simpa [ListParts.isUnresolved, isWrapped] using Or.inl hk)⟩

theorem keeps_entryOf (h : of? t ≠ some k) (hunit : k.isUnit t = false) : k.keeps (k.entryOf t) := by
  cases k with
  | sequence =>
    rw [ne_eq, of?_eq_sequence, Bool.not_eq_false] at h
    exact h
  | list ops =>
    rw [ne_eq, of?_eq_list, Bool.not_eq_true] at h
    refine ListParts.fits_entryOf ?_
    simp only [ListParts.isPart, h, isUnit] at hunit ⊢
    simp [hunit]
  | set ops =>
    rw [ne_eq, of?_eq_set, Bool.not_eq_true] at h
    simp only [isUnit] at hunit
    simp [keeps, entryOf, SetParts.isPart, h, hunit]

/-- A lone entry stands for itself. -/
theorem whole_entryOf (h : of? t ≠ some k) : k.whole [k.entryOf t] == t := by
  cases k with
  | sequence =>
    rw [ne_eq, of?_eq_sequence, Bool.not_eq_false] at h
    have hself := (Term.hasProperItems_of_isPlain h).beq_sequenceOf
    rw [SequenceParts.sequenceItems_of_isPlain h] at hself
    exact BEq.symm hself
  | set ops => exact BEq.refl t
  | list ops =>
    show Term.listOfEntries ops [ListParts.entryOf ops t] == t
    unfold ListParts.entryOf
    split
    · exact BEq.refl t
    · rename_i hopen
      have hop : ops.isOperator := by
        simp only [ListParts.isUnresolved, Bool.or_eq_true, Bool.not_eq_true', not_or, Bool.not_eq_false] at hopen
        exact hopen.1
      have hwhole : Term.listOfEntries ops [.item t] = t := if_pos hop
      rw [hwhole]
      exact BEq.refl t

/-! ### Collections that keep their entries -/

section Kept
variable (h : ∀ e ∈ w, k.keeps e)
include h

/-- The collection of some entries has these entries. -/
theorem contents_whole : k.Same (k.contents (k.whole w)) w := by
  cases k with
  | list ops =>
    rw [contents, whole, Term.entries_listOfEntries (ListParts.areFit_of_forall h)]
    exact Same.refl (list ops) w
  | set ops =>
    exact Term.sameInSets_setOf fun t ht => h _ ht
  | sequence =>
    have hitem : ∀ e ∈ w, e = .item e.term ∧ SequenceParts.isPlain e.term := by
      rintro (t | t) ht
      · exact ⟨rfl, h _ ht⟩
      · cases h _ ht
    have hplain : ∀ t ∈ w.map Entry.term, SequenceParts.isPlain t :=
      List.forall_mem_map.mpr fun e he => (hitem e he).2
    have hw : (w.map Entry.term).map Entry.item = w := by
      rw [List.map_map]
      exact (List.map_congr_left fun e he => (hitem e he).1.symm).trans (List.map_id w)
    have hcontents := ListParts.forall₂_items (Term.equal_sequenceItems hplain)
    rwa [hw] at hcontents

/-- A collection is a node of its own, its only entry, or the unit of a user operator. -/
theorem whole_cases : of? (k.whole w) = some k ∨ (∃ e, w = [e] ∧ k.IsOpened e ∧ k.whole w == e.term) ∨
    ∃ ops : CollectionOps, k = list ops ∧ ops.isOperator ∧ w = [] ∧ k.whole w = ops.unitTerm := by
  cases k with
  | list ops =>
    rcases Term.listOfEntries_cases (ListParts.areFit_of_forall h) with ⟨rfl, hop, hwhole⟩ | ⟨e, rfl, hown, hwhole⟩ |
      ⟨left, base, right, -, hwhole⟩
    · exact .inr (.inr ⟨ops, rfl, hop, rfl, hwhole⟩)
    · refine .inr (.inl ⟨e, rfl, fun hk => hown.resolve_left ?_, ?_⟩)
      · simpa [isWrapped] using hk
      · rw [whole, hwhole]
        exact BEq.refl _
    · left
      rw [whole, hwhole]
      rfl
  | set ops =>
    rcases Term.setOf_cases ops w with ⟨t, rfl, hwhole⟩ | hwhole
    · refine .inr (.inl ⟨_, rfl, fun _ => ⟨t, rfl⟩, ?_⟩)
      rw [whole, hwhole]
      exact BEq.refl t
    · left
      rw [whole, hwhole]
      rfl
  | sequence =>
    rcases Term.sequenceOf_lone_or_seq (w.map Entry.term) with ⟨t, hw, hwhole⟩ | hseq
    · obtain ⟨e, rfl, rfl⟩ := List.map_eq_singleton_iff.mp hw
      exact .inr (.inl ⟨e, rfl, fun hk => Bool.noConfusion hk, hwhole⟩)
    · exact .inl (of?_eq_sequence.mpr hseq)

end Kept

end Collection

end RuleCompiler
