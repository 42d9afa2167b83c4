import Mathlib.Data.List.Induction
import RuleCompiler.Proofs.Builder.List

/-! # Lists of any entries

A list is known by its entries, which are items and parts that are not known yet. Terms that are put together
to a list put together their entries, one after the other. Which of them the list keeps on its left, among its
unknown parts and on its right goes by their order alone. -/

namespace RuleCompiler

open Build (Always)
open Term (Equal)

/-- What stands in a collection: an item, or a part that is not known yet. -/
inductive Entry where
  | item (t : Term)
  | part (t : Term)

/-- Whether a list of `ops` keeps the term as an item. -/
def ListParts.isItem (ops : CollectionOps) (t : Term) : Bool :=
  !ops.isOperator || (isPart ops t && !isUnresolved { ops } t)

namespace Entry

def term : Entry → Term
  | item t | part t => t

/-- Entries of one kind with equal terms. -/
inductive Alike : Entry → Entry → Prop where
  | item {t u : Term} (h : t == u) : Alike (.item t) (.item u)
  | part {t u : Term} (h : t == u) : Alike (.part t) (.part u)

theorem Alike.refl : ∀ e : Entry, e.Alike e
  | .item _ => .item BEq.rfl
  | .part _ => .part BEq.rfl

theorem Alike.symm {e f : Entry} (h : e.Alike f) : f.Alike e := by
  cases h with
  | item h => exact .item (BEq.symm h)
  | part h => exact .part (BEq.symm h)

theorem Alike.trans {e f g : Entry} (h : e.Alike f) (h' : f.Alike g) : e.Alike g := by
  cases h with
  | item h => cases h' with | item h' => exact .item (BEq.trans h h')
  | part h => cases h' with | part h' => exact .part (BEq.trans h h')

theorem Alike.term {e f : Entry} (h : e.Alike f) : e.term == f.term := by
  cases h with
  | item h | part h => exact h

/-- Whether a list of `ops` keeps the entry among others. -/
def isKept (ops : CollectionOps) : Entry → Bool
  | item _ => true
  | part t => ListParts.isPart ops t && ListParts.isUnresolved { ops } t

/-- Whether the term of the entry makes the entry again. -/
def fits (ops : CollectionOps) : Entry → Bool
  | item t => ListParts.isItem ops t
  | part t => ListParts.isPart ops t && ListParts.isUnresolved { ops } t

theorem isKept_of_fits {ops : CollectionOps} {e : Entry} (h : e.fits ops) : e.isKept ops := by
  cases e with
  | item t => rfl
  | part t => exact h

end Entry

namespace ListParts

variable {ops : CollectionOps} {p q r : ListParts} {t u : Term} {e f : Entry} {w w' : List Entry}

theorem isUnresolved_ops (p : ListParts) (t : Term) : p.isUnresolved t = isUnresolved { ops := p.ops } t := rfl

/-- The entry that an operand makes which is neither a list nor the unit. -/
def entryOf (ops : CollectionOps) (t : Term) : Entry := if isUnresolved { ops } t then .part t else .item t

/-- The parts after one more entry. -/
def push (p : ListParts) : Entry → ListParts
  | .item t => p.addItem t
  | .part t => { p with base := p.base ++ closed p.ops p.right ++ [t], right := [] }

/-- The parts of a list of these entries. -/
def ofEntries (ops : CollectionOps) (w : List Entry) : ListParts := w.foldl push { ops }

/-- The entries that an unknown part stands for: a run of items is one among the parts. -/
def partEntries (ops : CollectionOps) (t : Term) : List Entry :=
  if t.isListOf ops then (t.itemsOf ops).map .item else [.part t]

/-- The entries of the parts. -/
def entries (p : ListParts) : List Entry :=
  p.left.map .item ++ (p.base.flatMap (partEntries p.ops) ++ p.right.map .item)

/-- The parts after those of another list. -/
def spliced (p q : ListParts) : ListParts :=
  let p := q.left.foldl addItem p
  if q.base.isEmpty then p
  else { p with base := p.base ++ closed p.ops p.right ++ q.base, right := q.right }

/-- The parts are equal, one by one. -/
structure Alike (p q : ListParts) : Prop where
  ops : p.ops = q.ops
  left : Equal p.left q.left
  base : Equal p.base q.base
  right : Equal p.right q.right

/-! ### Entries one after the other -/

theorem push_ops (p : ListParts) (e : Entry) : (p.push e).ops = p.ops := by
  cases e with
  | item t => exact addItem_ops p t
  | part t => rfl

theorem foldl_push_ops (w : List Entry) : ∀ p : ListParts, (w.foldl push p).ops = p.ops := by
  induction w with
  | nil => exact fun _ => rfl
  | cons e w ih => exact fun p => (ih (p.push e)).trans (push_ops p e)

theorem foldl_addItem_ops (w : List Term) : ∀ p : ListParts, (w.foldl addItem p).ops = p.ops := by
  induction w with
  | nil => exact fun _ => rfl
  | cons t w ih => exact fun p => (ih (p.addItem t)).trans (addItem_ops p t)

theorem spliced_ops (p q : ListParts) : (p.spliced q).ops = p.ops := by
  unfold spliced
  split <;> exact foldl_addItem_ops q.left p

theorem ofEntries_ops (ops : CollectionOps) (w : List Entry) : (ofEntries ops w).ops = ops := foldl_push_ops w _

theorem ofEntries_concat (ops : CollectionOps) (w : List Entry) (e : Entry) :
    ofEntries ops (w ++ [e]) = (ofEntries ops w).push e := by
  rw [ofEntries, List.foldl_append, List.foldl_cons, List.foldl_nil, ofEntries]

/-- How the parts of entries stand to each other. -/
structure IsOpen (p : ListParts) : Prop where
  /-- Items stand on the left until something unknown follows. -/
  right : p.base = [] → p.right = []
  /-- A run of items never comes first among what is unknown. -/
  base : ∀ b ∈ p.base.head?, isPart p.ops b

theorem IsOpen.push (h : p.IsOpen) (he : e.isKept p.ops) : (p.push e).IsOpen := by
  cases e with
  | item t =>
    show (p.addItem t).IsOpen
    unfold addItem
    split
    · exact ⟨h.right, h.base⟩
    · rename_i hbase
      exact ⟨fun hnil => absurd (List.isEmpty_iff.mpr hnil) hbase, h.base⟩
  | part t =>
    refine ⟨fun _ => rfl, fun b hb => ?_⟩
    have ht : isPart p.ops t := ((Bool.and_eq_true _ _).mp he).1
    by_cases hbase : p.base = []
    · simp only [ListParts.push, hbase, h.right hbase, closed, List.isEmpty_nil, if_true, List.nil_append,
        List.head?_cons, Option.mem_some_iff] at hb
      exact hb ▸ ht
    · obtain ⟨c, cs, hc⟩ := List.exists_cons_of_ne_nil hbase
      refine h.base b ?_
      rw [hc]
      simp only [ListParts.push, hc, List.cons_append] at hb
      exact hb

theorem isOpen_ofEntries (h : ∀ e ∈ w, e.isKept ops) : (ofEntries ops w).IsOpen := by
  induction w using List.reverseRecOn with
  | nil => exact ⟨fun _ => rfl, fun b hb => by cases hb⟩
  | append_singleton w e ih =>
    rw [List.forall_mem_append, List.forall_mem_singleton] at h
    rw [ofEntries_concat]
    exact (ih h.1).push ((ofEntries_ops ops w).symm ▸ h.2)

theorem partEntries_of_isPart (h : isPart ops t) : partEntries ops t = [.part t] := by
  rw [isPart, Bool.and_eq_true, Bool.not_eq_true'] at h
  rw [partEntries, h.1, if_neg Bool.false_ne_true]

theorem flatMap_partEntries_closed (ops : CollectionOps) (w : List Term) :
    (closed ops w).flatMap (partEntries ops) = w.map .item := by
  unfold closed
  split
  · rename_i h
    rw [List.isEmpty_iff.mp h]
    rfl
  · rw [List.flatMap_singleton, partEntries, if_pos (by simp [Term.isListOf])]
    exact congrArg _ (Term.itemsOf_of_list rfl)

theorem entries_push (h : p.IsOpen) (he : e.isKept p.ops) : (p.push e).entries = p.entries ++ [e] := by
  cases e with
  | item t =>
    show (p.addItem t).entries = _
    unfold addItem entries
    split
    · rename_i hbase
      have hbase := List.isEmpty_iff.mp hbase
      simp [hbase, h.right hbase]
    · simp only [List.map_append, List.map_cons, List.map_nil, List.append_assoc]
  | part t =>
    have ht : isPart p.ops t := ((Bool.and_eq_true _ _).mp he).1
    simp only [ListParts.push, entries, List.flatMap_append, flatMap_partEntries_closed, List.flatMap_singleton,
      partEntries_of_isPart ht, List.map_nil, List.append_nil, List.append_assoc]

theorem entries_ofEntries (h : ∀ e ∈ w, e.isKept ops) : (ofEntries ops w).entries = w := by
  induction w using List.reverseRecOn with
  | nil => rfl
  | append_singleton w e ih =>
    rw [List.forall_mem_append, List.forall_mem_singleton] at h
    have he := (ofEntries_ops ops w).symm ▸ h.2
    rw [ofEntries_concat, entries_push (isOpen_ofEntries h.1) he, ih h.1]

/-- Splicing parts with one more entry is adding it after them. -/
theorem spliced_push (hright : q.base = [] → q.right = []) (hops : q.ops = p.ops) :
    p.spliced (q.push e) = (p.spliced q).push e := by
  have hitems := foldl_addItem_ops q.left p
  obtain ⟨ops, left, base, right⟩ := q
  dsimp only at hops hitems
  subst hops
  cases e with
  | item t => cases base <;> simp [spliced, push, addItem]
  | part t =>
    cases base with
    | nil =>
      cases hright rfl
      simp [spliced, push, closed, hitems]
    | cons b base => simp [spliced, push, hitems]

/-- Splicing a list is adding its entries. -/
theorem spliced_ofEntries (h : ∀ e ∈ w, e.isKept p.ops) : p.spliced (ofEntries p.ops w) = w.foldl push p := by
  induction w using List.reverseRecOn with
  | nil => rfl
  | append_singleton w e ih =>
    rw [List.forall_mem_append, List.forall_mem_singleton] at h
    rw [ofEntries_concat, List.foldl_append, List.foldl_cons, List.foldl_nil, ← ih h.1]
    exact spliced_push (isOpen_ofEntries h.1).right (ofEntries_ops p.ops w)

/-! ### Equal entries -/

theorem Alike.refl (p : ListParts) : p.Alike p := ⟨rfl, .refl _, .refl _, .refl _⟩

theorem Alike.symm (h : p.Alike q) : q.Alike p := ⟨h.ops.symm, h.left.symm, h.base.symm, h.right.symm⟩

theorem Alike.trans (h : p.Alike q) (h' : q.Alike r) : p.Alike r :=
  ⟨h.ops.trans h'.ops, h.left.trans h'.left, h.base.trans h'.base, h.right.trans h'.right⟩

theorem closed_congr {ts us : List Term} (h : Equal ts us) : Equal (closed ops ts) (closed ops us) := by
  unfold closed
  cases h with
  | nil => exact .nil
  | cons h hw => exact .cons (Term.beq_of_alike (.list (.cons h hw) .nil .nil)) .nil

theorem Alike.addItem (h : p.Alike q) (ht : t == u) : (p.addItem t).Alike (q.addItem u) := by
  have hone : Equal [t] [u] := .cons ht .nil
  have hbase : p.base.isEmpty = q.base.isEmpty := by
    have hb := h.base
    generalize p.base = base, q.base = base' at hb
    cases hb <;> rfl
  unfold ListParts.addItem
  rw [hbase]
  split
  · exact ⟨h.ops, h.left.append hone, h.base, h.right⟩
  · exact ⟨h.ops, h.left, h.base, h.right.append hone⟩

theorem Alike.push (h : p.Alike q) (he : e.Alike f) : (p.push e).Alike (q.push f) := by
  cases he with
  | item ht => exact h.addItem ht
  | part ht =>
    have hclosed : Equal (closed p.ops p.right) (closed q.ops q.right) := h.ops ▸ closed_congr h.right
    exact ⟨h.ops, h.left, (h.base.append hclosed).append (.cons ht .nil), .nil⟩

theorem Alike.foldl_addItem {ts us : List Term} (hw : Equal ts us) : ∀ {p q : ListParts}, p.Alike q →
    (ts.foldl ListParts.addItem p).Alike (us.foldl ListParts.addItem q) := by
  induction hw with
  | nil => exact id
  | cons ht _ ih => exact fun h => ih (h.addItem ht)

theorem Alike.foldl_push (hw : List.Forall₂ Entry.Alike w w') : ∀ {p q : ListParts}, p.Alike q →
    (w.foldl ListParts.push p).Alike (w'.foldl ListParts.push q) := by
  induction hw with
  | nil => exact id
  | cons he _ ih => exact fun h => ih (h.push he)

theorem ofEntries_congr (h : List.Forall₂ Entry.Alike w w') : (ofEntries ops w).Alike (ofEntries ops w') :=
  Alike.foldl_push h (.refl _)

theorem isItem_congr (h : t == u) : isItem ops t = isItem ops u := by
  rw [isItem, isItem, isPart_congr h, isUnresolved_congr rfl h]

theorem fits_congr (h : e.Alike f) : e.fits ops = f.fits ops := by
  cases h with
  | item h => exact isItem_congr h
  | part h => rw [Entry.fits, Entry.fits, isPart_congr h, isUnresolved_congr rfl h]

theorem isKept_congr (h : e.Alike f) : e.isKept ops = f.isKept ops := by
  cases h with
  | item h => rfl
  | part h => rw [Entry.isKept, Entry.isKept, isPart_congr h, isUnresolved_congr rfl h]

theorem entryOf_congr (h : t == u) : (entryOf ops t).Alike (entryOf ops u) := by
  unfold entryOf
  rw [isUnresolved_congr rfl h]
  split
  · exact .part h
  · exact .item h

theorem fits_entryOf (h : isPart ops t) : (entryOf ops t).fits ops := by
  unfold entryOf
  split
  · rename_i hu
    simp only [Entry.fits, h, hu, Bool.and_self]
  · rename_i hu
    simp only [Entry.fits, isItem, h, hu, Bool.not_false, Bool.and_self, Bool.or_true]

theorem forall₂_items {ts us : List Term} (h : Equal ts us) :
    List.Forall₂ Entry.Alike (ts.map .item) (us.map .item) :=
  List.forall₂_map_left_iff.mpr (List.forall₂_map_right_iff.mpr (h.imp fun _ _ h => .item h))

theorem partEntries_congr (h : t == u) : List.Forall₂ Entry.Alike (partEntries ops t) (partEntries ops u) := by
  unfold partEntries
  rw [isListOf_congr h]
  split
  · exact forall₂_items (itemsOf_congr h)
  · exact .cons (.part h) .nil

theorem entries_congr (h : p.Alike q) : List.Forall₂ Entry.Alike p.entries q.entries := by
  unfold entries
  rw [h.ops]
  exact List.rel_append (forall₂_items h.left)
    (List.rel_append (List.rel_flatMap h.base fun _ _ h => partEntries_congr h) (forall₂_items h.right))

/-! ### Entries that a list has -/

/-- Whether lists of `ops` have such entries: parts are none that a list would open up, and the only entry is
one that its term makes again. -/
structure AreFit (ops : CollectionOps) (w : List Entry) : Prop where
  kept : ∀ e ∈ w, e.isKept ops
  lone : ∀ e, w = [e] → e.fits ops

theorem areFit_of_forall (h : ∀ e ∈ w, e.fits ops) : AreFit ops w :=
  ⟨fun e he => Entry.isKept_of_fits (h e he), fun e he => h e (he ▸ List.mem_cons_self)⟩

theorem AreFit.congr (h : List.Forall₂ Entry.Alike w w') (hw : AreFit ops w') : AreFit ops w := by
  refine ⟨fun e he => ?_, fun e he => ?_⟩
  · obtain ⟨f, hf, hef⟩ := PairedLists.exists_mem h he
    rw [isKept_congr hef]
    exact hw.kept f hf
  · subst he
    cases h with
    | cons hef h =>
      cases h
      rw [fits_congr hef]
      exact hw.lone _ rfl

theorem AreFit.flatMap {α : Type} {contents : α → List Entry} {as : List α} (h : ∀ a ∈ as, AreFit ops (contents a)) :
    AreFit ops (as.flatMap contents) := by
  refine ⟨fun e he => ?_, ?_⟩
  · obtain ⟨a, ha, he⟩ := List.mem_flatMap.mp he
    exact (h a ha).kept e he
  · induction as with
    | nil => exact fun e he => by cases he
    | cons a as ih =>
      obtain ⟨ha, has⟩ := List.forall_mem_cons.mp h
      intro e he
      rw [List.flatMap_cons, List.append_eq_singleton_iff] at he
      rcases he with ⟨-, he⟩ | ⟨he, -⟩
      · exact ih has e he
      · exact ha.lone e he

/-! ### Adding -/

/-- An operand that is no list becomes a part or an item. -/
theorem always_addOperand (h : p.Alike q) (ht : t == u) :
    Always (p.addOperand t) fun r => r.Alike (q.push (entryOf q.ops u)) := by
  have hsame : p.isUnresolved t = isUnresolved { ops := q.ops } u := isUnresolved_congr h.ops ht
  unfold addOperand entryOf
  rw [hsame]
  split
  · refine (always_closeRight p).bind fun r hr => .pure ⟨hr.ops.trans h.ops, ?_, ?_, ?_⟩
    · rw [hr.left]
      exact h.left
    · have hbase := hr.base
      rw [h.ops] at hbase
      exact (hbase.trans (h.base.append (closed_congr h.right))).append (.cons ht .nil)
    · rw [hr.right]
      exact .nil
  · exact .pure (h.addItem ht)

/-- The parts of a list are spliced. -/
theorem always_concat_list {left base right : List Term} (h : p.Alike q)
    (hn : t.node = .list p.ops left base right) (hr : Alike { ops := p.ops, left, base, right } r) :
    Always (p.concat t) fun p' => p'.Alike (q.spliced r) := by
  have hleft := Alike.foldl_addItem hr.left h
  have hbase : base.isEmpty = r.base.isEmpty := by
    have hb : Equal base r.base := hr.base
    generalize r.base = base' at hb
    cases hb <;> rfl
  unfold concat spliced
  rw [hn]
  simp only [if_true, hbase]
  split
  · exact .pure hleft
  · refine (always_closeRight _).bind fun p' hp' => .pure ⟨hp'.ops.trans hleft.ops, ?_, ?_, ?_⟩
    · rw [hp'.left]
      exact hleft.left
    · have hp'base := hp'.base
      rw [hleft.ops] at hp'base
      exact (hp'base.trans (hleft.base.append (closed_congr hleft.right))).append hr.base
    · rw [hp'.right, List.nil_append]
      exact hr.right

theorem concat_of_not_list (h : t.isListOf p.ops = false) :
    p.concat t = if p.ops.isUnit t then pure p else p.addOperand t := by
  unfold concat
  split
  · rename_i hn
    rw [Term.isListOf, hn, decide_eq_false_iff_not] at h
    rw [if_neg h, CollectionOps.isUnit, hn]
    rfl
  · rfl

/-! ### Building -/

/-- What `build` makes of the parts, in nodes without numbers. -/
def built (p : ListParts) : Term :=
  match p.left, p.base, p.right with
  | [], [t], [] => t
  | [], [], right => if p.ops.isOperator then p.ops.unitTerm else .canonical (.list p.ops [] [] right)
  | [t], [], right => if p.ops.isOperator then t else .canonical (.list p.ops [t] [] right)
  | left, base, right => .canonical (.list p.ops left base right)

theorem always_build_built (h : p.Alike q) : Always p.build (· == q.built) := by
  obtain ⟨ops, left, base, right⟩ := p
  obtain ⟨ops', left', base', right'⟩ := q
  obtain ⟨hops, hl, hb, hr⟩ := h
  dsimp only at hops hl hb hr
  subst hops
  have hlist : Always (Term.new (.list ops left base right))
      (· == .canonical (.list ops left' base' right')) :=
    (Term.always_new _).mono fun t ht => Term.beq_of_alike (ht ▸ .list hl hb hr)
  cases hb with
  | nil =>
    rcases hl with _ | ⟨h, _ | _⟩
    · simp only [build, built]
      split
      · exact .pure BEq.rfl
      · exact hlist
    · simp only [build, built]
      split
      · exact .pure h
      · exact hlist
    · exact hlist
  | cons h hb =>
    -- only a lone unknown part stands for itself
    rcases hl with _ | ⟨_, _ | _⟩ <;> rcases hb with _ | _ <;> rcases hr with _ | _
    · exact .pure h
    all_goals exact hlist

end ListParts

namespace Term
variable {ops : CollectionOps} {t u : Term} {w w' : List Entry}

open ListParts (entryOf ofEntries)

theorem node_of_isListOf (h : t.isListOf ops) : ∃ left base right, t.node = .list ops left base right := by
  unfold isListOf at h
  split at h
  · rename_i hn
    exact ⟨_, _, _, of_decide_eq_true h ▸ hn⟩
  · cases h

/-- What is equal to a list is a list with equal parts. -/
theorem exists_list_of_beq {left base right : List Term} (h : t == u) (hn : u.node = .list ops left base right) :
    ∃ ls bs rs, t.node = .list ops ls bs rs ∧
      ListParts.Alike { ops, left := ls, base := bs, right := rs } { ops, left, base, right } := by
  have halike := alike_of_beq h
  rw [hn] at halike
  generalize t.node = m at halike
  cases halike with
  | list hl hb hr => exact ⟨_, _, _, rfl, rfl, hl, hb, hr⟩

/-- The entries of the term as a part of a list of `ops`. -/
def entries (ops : CollectionOps) (t : Term) : List Entry :=
  match t.node with
  | .list ops' left base right => if ops' = ops then ListParts.entries { ops, left, base, right } else [entryOf ops t]
  | _ => if ops.isUnit t then [] else [entryOf ops t]

/-- Whether the term, if it is a list of `ops`, has the parts of a list of its entries. -/
def HasEntries (ops : CollectionOps) (t : Term) : Prop :=
  ∀ left base right, t.node = .list ops left base right →
    ∃ w, ListParts.AreFit ops w ∧ ListParts.Alike { ops, left, base, right } (ofEntries ops w)

/-- The list of some entries. -/
def listOfEntries (ops : CollectionOps) (w : List Entry) : Term := (ofEntries ops w).built

theorem entries_of_list {left base right : List Term} (hn : t.node = .list ops left base right) :
    t.entries ops = ListParts.entries { ops, left, base, right } := by
  rw [entries, hn]
  exact if_pos rfl

theorem entries_of_not_list (h : t.isListOf ops = false) :
    t.entries ops = if ops.isUnit t then [] else [entryOf ops t] := by
  rw [entries]
  split
  · rename_i hn
    rw [isListOf, hn, decide_eq_false_iff_not] at h
    rw [if_neg h, CollectionOps.isUnit, hn]
    rfl
  · rfl

theorem entries_of_isPart (h : ListParts.isPart ops t) : t.entries ops = [entryOf ops t] := by
  rw [ListParts.isPart, Bool.and_eq_true, Bool.not_eq_true', Bool.not_eq_true'] at h
  rw [entries_of_not_list h.1, h.2]
  rfl

theorem entries_congr (h : t == u) : List.Forall₂ Entry.Alike (t.entries ops) (u.entries ops) := by
  cases hlist : u.isListOf ops with
  | true =>
    obtain ⟨left, base, right, hn⟩ := node_of_isListOf hlist
    obtain ⟨ls, bs, rs, hm, hparts⟩ := exists_list_of_beq h hn
    rw [entries_of_list hm, entries_of_list hn]
    exact ListParts.entries_congr hparts
  | false =>
    rw [entries_of_not_list hlist, entries_of_not_list (ListParts.isListOf_congr h ▸ hlist),
      CollectionOps.isUnit_congr h]
    split
    · exact .nil
    · exact .cons (ListParts.entryOf_congr h) .nil

theorem HasEntries.congr (h : t == u) (hu : u.HasEntries ops) : t.HasEntries ops := by
  intro left base right hn
  obtain ⟨ls, bs, rs, hm, hsame⟩ := exists_list_of_beq (BEq.symm h) hn
  obtain ⟨w, hw, hparts⟩ := hu ls bs rs hm
  exact ⟨w, hw, hsame.symm.trans hparts⟩

theorem hasEntries_of_not_list (h : t.isListOf ops = false) : t.HasEntries ops := by
  intro left base right hn
  rw [isListOf, hn, decide_eq_false_iff_not] at h
  exact absurd rfl h

theorem HasEntries.areFit (h : t.HasEntries ops) : ListParts.AreFit ops (t.entries ops) := by
  cases hlist : t.isListOf ops with
  | true =>
    obtain ⟨left, base, right, hn⟩ := node_of_isListOf hlist
    obtain ⟨w, hw, hparts⟩ := h left base right hn
    have hentries := ListParts.entries_congr hparts
    rw [ListParts.entries_ofEntries hw.kept, ← entries_of_list hn] at hentries
    exact hw.congr hentries
  | false =>
    rw [entries_of_not_list hlist]
    split
    · exact ListParts.areFit_of_forall (List.forall_mem_nil _)
    · rename_i hunit
      refine ListParts.areFit_of_forall (List.forall_mem_singleton.mpr (ListParts.fits_entryOf ?_))
      rw [ListParts.isPart, hlist, Bool.eq_false_iff.mpr hunit]
      rfl

theorem isUnit_unitTerm (ops : CollectionOps) : ops.isUnit ops.unitTerm := beq_self_eq_true ops.unit

/-- The list of one entry that stands for itself has this entry. -/
theorem entries_term {e : Entry} (he : e.fits ops) (hown : ops.isOperator ∨ ∃ t, e = .part t) :
    ListParts.isPart ops e.term ∧ e.term.entries ops = [e] := by
  cases e with
  | item t =>
    have hop : ops.isOperator := hown.resolve_right fun ⟨_, h⟩ => by cases h
    simp only [Entry.fits, ListParts.isItem, hop, Bool.not_true, Bool.false_or, Bool.and_eq_true,
      Bool.not_eq_true'] at he
    exact ⟨he.1, (entries_of_isPart he.1).trans (congrArg (fun e => [e]) (if_neg (by simpa using he.2)))⟩
  | part t =>
    obtain ⟨hpart, hunresolved⟩ := (Bool.and_eq_true _ _).mp he
    exact ⟨hpart, (entries_of_isPart hpart).trans (congrArg (fun e => [e]) (if_pos hunresolved))⟩

/-- A list is the unit, its only entry, or a node of its own. -/
theorem listOfEntries_cases (h : ListParts.AreFit ops w) :
    w = [] ∧ ops.isOperator ∧ listOfEntries ops w = ops.unitTerm ∨
      (∃ e, w = [e] ∧ (ops.isOperator ∨ ∃ t, e = .part t) ∧ listOfEntries ops w = e.term) ∨
        ∃ left base right, { ops, left, base, right } = ofEntries ops w ∧
          listOfEntries ops w = canonical (.list ops left base right) := by
  have hentries := ListParts.entries_ofEntries h.kept
  have hopen := ListParts.isOpen_ofEntries h.kept
  have hops := ListParts.ofEntries_ops ops w
  rw [listOfEntries]
  generalize ofEntries ops w = q at hentries hopen hops
  obtain ⟨ops', left, base, right⟩ := q
  cases hops
  have hright := hopen.right
  unfold ListParts.built
  dsimp only at hright ⊢
  split
  · rename_i t
    refine .inr (.inl ⟨.part t, ?_, .inr ⟨t, rfl⟩, rfl⟩)
    rw [← hentries, ListParts.entries, List.flatMap_singleton, ListParts.partEntries_of_isPart (hopen.base t rfl)]
    rfl
  · cases hright rfl
    split
    · rename_i hop
      exact .inl ⟨hentries.symm, hop, rfl⟩
    · exact .inr (.inr ⟨_, _, _, rfl, rfl⟩)
  · rename_i t
    cases hright rfl
    split
    · rename_i hop
      exact .inr (.inl ⟨.item t, hentries.symm, .inl hop, rfl⟩)
    · exact .inr (.inr ⟨_, _, _, rfl, rfl⟩)
  · exact .inr (.inr ⟨_, _, _, rfl, rfl⟩)

/-- The list of some entries has these entries. -/
theorem entries_listOfEntries (h : ListParts.AreFit ops w) : (listOfEntries ops w).entries ops = w := by
  rcases listOfEntries_cases h with ⟨rfl, -, hlist⟩ | ⟨e, rfl, hown, hlist⟩ | ⟨left, base, right, hparts, hlist⟩
  · rw [hlist, entries_of_not_list rfl, if_pos (isUnit_unitTerm ops)]
  · rw [hlist]
    exact (entries_term (h.lone e rfl) hown).2
  · rw [hlist, entries_of_list rfl, hparts]
    exact ListParts.entries_ofEntries h.kept

theorem hasEntries_listOfEntries (h : ListParts.AreFit ops w) : (listOfEntries ops w).HasEntries ops := by
  rcases listOfEntries_cases h with ⟨-, -, hlist⟩ | ⟨e, rfl, hown, hlist⟩ | ⟨left, base, right, hparts, hlist⟩
  · rw [hlist]
    exact hasEntries_of_not_list rfl
  · rw [hlist]
    have hpart := (entries_term (h.lone e rfl) hown).1
    rw [ListParts.isPart, Bool.and_eq_true, Bool.not_eq_true'] at hpart
    exact hasEntries_of_not_list hpart.1
  · rw [hlist]
    rintro _ _ _ ⟨⟩
    exact ⟨w, h, hparts ▸ .refl _⟩

end Term

namespace ListParts
variable {ops : CollectionOps} {p q : ListParts} {t u : Term} {w w' : List Entry}

theorem built_congr (h : p.Alike q) : p.built == q.built := by
  obtain ⟨b, n, hb, hbq⟩ := always_build_built h 0
  obtain ⟨b', n', hb', hbp⟩ := always_build_built (Alike.refl p) 0
  cases hb.symm.trans hb'
  exact BEq.trans (BEq.symm hbp) hbq

/-- A list adds its entries, the unit none, and anything else its own. -/
theorem always_concat_entries (h : p.Alike q) (ht : t == u) (hu : u.HasEntries q.ops) :
    Always (p.concat t) fun r => r.Alike ((u.entries q.ops).foldl push q) := by
  cases hlist : u.isListOf q.ops with
  | true =>
    obtain ⟨left, base, right, hn⟩ := Term.node_of_isListOf hlist
    obtain ⟨w, hw, hparts⟩ := hu left base right hn
    obtain ⟨ls, bs, rs, hm, hsame⟩ := Term.exists_list_of_beq ht hn
    have hentries := entries_congr hparts
    have hkept := hw.kept
    rw [entries_ofEntries hkept, ← Term.entries_of_list hn] at hentries
    rw [← h.ops] at hm hsame hparts hkept
    refine (always_concat_list h hm (hsame.trans hparts)).mono fun r hr => hr.trans ?_
    rw [h.ops] at hkept ⊢
    rw [spliced_ofEntries hkept]
    exact (Alike.foldl_push hentries (.refl q)).symm
  | false =>
    rw [← isListOf_congr ht, ← h.ops] at hlist
    rw [concat_of_not_list hlist, Term.entries_of_not_list (by rwa [← isListOf_congr ht, ← h.ops]), h.ops,
      CollectionOps.isUnit_congr ht]
    split
    · exact .pure h
    · exact always_addOperand h ht

end ListParts

namespace Term
variable {ops : CollectionOps} {w w' : List Entry}

theorem listOfEntries_congr (h : List.Forall₂ Entry.Alike w w') :
    listOfEntries ops w == listOfEntries ops w' :=
  ListParts.built_congr (ListParts.ofEntries_congr h)

end Term

end RuleCompiler
