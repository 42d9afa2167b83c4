import Mathlib.Algebra.Order.BigOperators.Group.List
import Mathlib.Algebra.Order.Ring.Nat
import RuleCompiler.Formula.Solve
import RuleCompiler.Proofs.Composition.Kinds
import RuleCompiler.Proofs.Formula.Instances

/-! # Instances of built terms

What a substitution makes of a term, in nodes without numbers. Applications and rewrites keep their kind. A
collection becomes the collection of what its entries bring once they are replaced, so that a substitution
acts on the entries alone. This is why substitutions compose. -/

namespace RuleCompiler

open Term (Equal)

/-- Whether builders make such a node of its children as they are. -/
def Node.isSimple {α : Type} : Node α → Bool
  | .app .. | .rewrite .. => true
  | n => n.isLeaf

namespace Term
variable {t u : Term} {k : Collection} {value : Var → Option Term}

/-- The simple node with other children. -/
def withChildren (t : Term) (cs : List Term) : Term :=
  match t.node, cs with
  | .app (.const l) _ s, args => canonical (.app (.const l) args s)
  | .app (.freezer _) _ s, frozen :: args => canonical (.app (.freezer frozen) args s)
  | .rewrite .., [left, right] => canonical (.rewrite left right)
  | _, _ => t

/-! ### Simple nodes -/

theorem isSimple_of_head (h : t.node.head = u.node.head) : t.node.isSimple = u.node.isSimple := by
  have hkind := Node.Alike.of_head h
  generalize t.node = m, u.node = n at hkind
  cases hkind <;> rfl

/-- A constant is known by its head. -/
theorem constant_of_head {l : String} {s : SortName} (h : t.node.head = u.node.head)
    (hn : t.node = .app (.const l) [] s) : u.node = .app (.const l) [] s := by
  have hkind := Node.Alike.of_head h
  rw [hn] at hkind
  generalize u.node = n at hkind
  cases hkind with
  | app hargs =>
    cases hargs
    rfl

theorem isVar_of_collection (hk : Collection.of? t = some k) : t.isVar = false := by
  rw [Collection.of?] at hk
  rw [isVar]
  cases hn : t.node <;> simp_all [Node.isVar]

theorem of?_of_simple (h : t.node.isSimple) : Collection.of? t = none := by
  rw [Collection.of?]
  cases hn : t.node <;> simp_all [Node.isSimple, Node.isLeaf]

/-- A simple node with as many other children has the same head. -/
theorem node_withChildren {cs : List Term} (h : t.node.isSimple) (hlen : cs.length = t.children.length) :
    (t.withChildren cs).node.head = t.node.head ∧ (t.withChildren cs).children = cs := by
  unfold withChildren
  rw [children] at hlen ⊢
  cases hn : t.node with
  | app l args s =>
    rw [hn] at hlen
    cases l with
    | const l => simp_all [Node.children, Node.head]
    | freezer f => cases cs <;> simp_all [Node.children, Node.head]
  | rewrite l r =>
    rw [hn] at hlen
    obtain ⟨l', r', rfl⟩ := List.length_eq_two.mp hlen
    exact ⟨rfl, rfl⟩
  | token | var | hole | labelValue =>
    rw [hn] at hlen
    obtain rfl := List.eq_nil_of_length_eq_zero hlen
    dsimp only
    rw [hn]
    exact ⟨rfl, rfl⟩
  | _ =>
    rw [hn] at h
    cases h

theorem withChildren_of_not_simple {cs : List Term} (h : t.node.isSimple = false) : t.withChildren cs = t := by
  unfold withChildren
  cases hn : t.node <;> simp_all [Node.isSimple]

/-! ### The weight of entries -/

theorem below_lt_weight (t : Term) : (t.children.map weight).sum + t.frames.length < t.weight := by
  conv_rhs => rw [weight, fold_eq, ← weight]
  show _ < (t.children.map weight).sum + t.frames.length + _
  split <;> omega

theorem weight_child {c : Term} (hc : c ∈ t.children) : c.weight < t.weight := by
  have hle := List.le_sum_of_mem (List.mem_map_of_mem (f := weight) hc)
  have hlt := t.below_lt_weight
  omega

/-- Between unknown parts stand entries and runs of them. -/
theorem mem_partEntries {ops : CollectionOps} {e : Entry} (he : e ∈ ListParts.partEntries ops t) :
    e.term = t ∨ e.term ∈ t.children := by
  unfold ListParts.partEntries at he
  split at he
  · rename_i hlist
    obtain ⟨left, base, right, hn⟩ := node_of_isListOf hlist
    rw [itemsOf_of_list hn] at he
    obtain ⟨u, hu, rfl⟩ := List.mem_map.mp he
    rw [children, hn]
    simp [Node.children, Entry.term, hu]
  · exact .inl (List.mem_singleton.mp he ▸ rfl)

/-- An entry of a collection is a child, an item of a run, or the frame. -/
theorem mem_contents {e : Entry} (hk : Collection.of? t = some k) (he : e ∈ k.contents t) : e.term ∈ t.children ∨
    (∃ c ∈ t.children, e.term ∈ c.children) ∨ ∃ v ∈ t.frames, e.term = canonical (.var v) := by
  cases k with
  | sequence =>
    obtain ⟨items, frame, hn⟩ := SequenceParts.node_of_not_isPlain (Collection.of?_eq_sequence.mp hk)
    rw [Collection.contents, sequenceItems, hn] at he
    rw [children, frames, hn]
    obtain ⟨u, hu, rfl⟩ := List.mem_map.mp he
    rcases List.mem_append.mp hu with hu | hu
    · exact .inl hu
    · obtain ⟨v, hv, rfl⟩ := List.mem_map.mp hu
      exact .inr (.inr ⟨v, hv, rfl⟩)
  | set ops =>
    obtain ⟨es, base, hn⟩ := node_of_isSetOf (Collection.of?_eq_set.mp hk)
    rw [Collection.contents, setEntries_of_set hn] at he
    rw [children, hn]
    left
    rcases List.mem_append.mp he with he | he
    all_goals
      obtain ⟨u, hu, rfl⟩ := List.mem_map.mp he
      simp [Node.children, Entry.term, hu]
  | list ops =>
    obtain ⟨left, base, right, hn⟩ := node_of_isListOf (Collection.of?_eq_list.mp hk)
    rw [Collection.contents, entries_of_list hn, ListParts.entries, List.mem_append, List.mem_append] at he
    rw [children, hn]
    rcases he with he | he | he
    · obtain ⟨u, hu, rfl⟩ := List.mem_map.mp he
      simp [Node.children, Entry.term, hu]
    · obtain ⟨b, hb, he⟩ := List.mem_flatMap.mp he
      have hb : b ∈ left ++ (base ++ right) := by simp [hb]
      rcases mem_partEntries he with heq | hchild
      · exact .inl (heq ▸ hb)
      · exact .inr (.inl ⟨b, hb, hchild⟩)
    · obtain ⟨u, hu, rfl⟩ := List.mem_map.mp he
      simp [Node.children, Entry.term, hu]

theorem weight_entry {e : Entry} (hk : Collection.of? t = some k) (he : e ∈ k.contents t) :
    e.term.weight < t.weight := by
  rcases mem_contents hk he with hc | ⟨c, hc, hd⟩ | ⟨v, hv, heq⟩
  · exact weight_child hc
  · exact Nat.lt_trans (weight_child hd) (weight_child hc)
  · have hlt := t.below_lt_weight
    have hlen := List.length_pos_of_mem hv
    have hone : (canonical (.var v)).weight = 1 := rfl
    rw [heq, hone]
    omega

/-! ### Instances -/

/-- The term with the variables replaced, in nodes without numbers. -/
def replaced (value : Var → Option Term) (t : Term) : Term :=
  match t.asVar?.bind value with
  | some u => u
  | none => match _hk : Collection.of? t with
    | some k => k.whole (((k.contents t).attach.map fun e => e.1.map fun _ => replaced value e.1.term).flatMap k.brings)
    | none => t.withChildren (t.children.attach.map fun c => replaced value c.1)
termination_by t.weight
decreasing_by
  · exact weight_entry _hk e.2
  · exact weight_child c.2

theorem replaced_of_var {v : Var} (hn : t.node = .var v) : t.replaced value = (value v).getD t := by
  rw [replaced, asVar?_of_var hn, Option.bind_some]
  cases value v with
  | some u => rfl
  | none =>
    have hk : Collection.of? t = none := by rw [Collection.of?, hn]
    dsimp only
    split
    · rename_i hk'
      cases hk.symm.trans hk'
    · unfold withChildren
      rw [hn]
      rfl

/-- A substitution acts on the entries of a collection. -/
theorem replaced_of_collection (hk : Collection.of? t = some k) :
    t.replaced value = k.whole (k.act (replaced value) (k.contents t)) := by
  rw [replaced, asVar?_eq_none (isVar_of_collection hk), Option.bind_none]
  dsimp only
  split
  · rename_i k' hk'
    cases hk.symm.trans hk'
    have hmap (e : Entry) : (e.map fun _ => replaced value e.term) = e.map (replaced value) := by cases e <;> rfl
    simp only [hmap, List.attach_map_val (f := Entry.map (replaced value)), List.flatMap_map, Collection.act]
  · rename_i hk'
    cases hk.symm.trans hk'

theorem replaced_of_node (hvar : t.isVar = false) (hk : Collection.of? t = none) :
    t.replaced value = t.withChildren (t.children.map (replaced value)) := by
  rw [replaced, asVar?_eq_none hvar, Option.bind_none]
  dsimp only
  split
  · rename_i hk'
    cases hk.symm.trans hk'
  · rw [List.attach_map_val]

theorem replaced_of_simple (value : Var → Option Term) (h : t.node.isSimple) (hvar : t.isVar = false) :
    (t.replaced value).node.head = t.node.head ∧ (t.replaced value).children = t.children.map (replaced value) := by
  rw [replaced_of_node hvar (of?_of_simple h)]
  exact node_withChildren h (List.length_map _)

/-- Equal terms have equal instances. -/
theorem replaced_congr (h : t == u) : t.replaced value == u.replaced value := by
  induction hw : t.weight using Nat.strong_induction_on generalizing t u with
  | _ n ih =>
  subst hw
  cases hvar : t.isVar with
  | true =>
    obtain ⟨v, hn⟩ := exists_var hvar
    have hn' : u.node = .var v := node_of_asVar? ((asVar?_congr h).symm.trans (asVar?_of_var hn))
    rw [replaced_of_var hn, replaced_of_var hn']
    cases value v with
    | none => exact h
    | some a => exact BEq.refl a
  | false =>
    have hvar' := (isVar_congr h).symm.trans hvar
    have hkind := Collection.of?_congr h
    cases hk : Collection.of? t with
    | some k =>
      rw [replaced_of_collection hk, replaced_of_collection (hkind ▸ hk)]
      refine Collection.whole_congr (Collection.act_congr ?_)
      exact PairedLists.imp_mem (Collection.contents_congr h) fun e he e' _ halike =>
        ⟨halike, ih _ (weight_entry hk he) halike.term rfl⟩
    | none =>
      rw [hk] at hkind
      have hsimple := isSimple_of_head (head_of_beq h)
      cases hs : t.node.isSimple with
      | true =>
        have ht := replaced_of_simple value hs hvar
        have hu := replaced_of_simple value (hsimple ▸ hs) hvar'
        refine beq_of_head (ht.1.trans ((head_of_beq h).trans hu.1.symm)) ?_
        rw [ht.2, hu.2]
        refine List.forall₂_map_left_iff.mpr (List.forall₂_map_right_iff.mpr ?_)
        exact PairedLists.imp_mem (children_congr h) fun c hc _ _ hcd => ih _ (weight_child hc) hcd rfl
      | false =>
        rw [replaced_of_node hvar hk, replaced_of_node hvar' hkind.symm, withChildren_of_not_simple hs,
          withChildren_of_not_simple (hsimple ▸ hs)]
        exact h

end Term

/-! ### Built terms -/

/-- Whether constants as `C` allows them may occur with such collections. The unit of a user operator has its
sort. The unit of a list with an element wrapper, or of a set, may not occur: it vanishes where there are
other parts, but on its own it is another term than the empty collection. -/
def Collection.Admits (k : Collection) (C : String → SortName → Prop) : Prop :=
  match k with
  | .sequence => True
  | .list ops => if ops.isOperator then C ops.unit ops.sort ∧ ∀ s, C ops.unit s → s = ops.sort else ∀ s, ¬C ops.unit s
  | .set ops => ∀ s, ¬C ops.unit s

theorem Collection.admits_operator {C : String → SortName → Prop} {ops : CollectionOps} (hop : ops.isOperator) :
    (list ops).Admits C ↔ C ops.unit ops.sort ∧ ∀ s, C ops.unit s → s = ops.sort := by
  simp only [Admits, hop, if_true]

theorem Collection.admits_wrapped {C : String → SortName → Prop} {ops : CollectionOps} (hop : ops.isOperator = false) :
    (list ops).Admits C ↔ ∀ s, ¬C ops.unit s := by
  simp only [Admits, hop, Bool.false_eq_true, if_false]

namespace Term

/-- Terms made of variables, tokens, applications, rewrites, and of sequences, lists and sets in builder normal
form: a collection is what builders make of its entries, and keeps each of them. Constants are among `C`. -/
inductive IsBuilt (C : String → SortName → Prop) : Term → Prop where
  | simple {t : Term} (h : t.node.isSimple) (hconst : ∀ l s, t.node = .app (.const l) [] s → C l s)
      (hbelow : ∀ c ∈ t.children, IsBuilt C c) : IsBuilt C t
  | collection {t : Term} {k : Collection} (hk : Collection.of? t = some k) (hC : k.Admits C)
      (hwhole : t == k.whole (k.contents t)) (hkeeps : ∀ e ∈ k.contents t, k.keeps e)
      (hbelow : ∀ e ∈ k.contents t, IsBuilt C e.term) : IsBuilt C t

variable {C : String → SortName → Prop} {t u : Term} {k : Collection} {value : Var → Option Term} {w : List Entry}

/-- Whether the values of a substitution are built. -/
def AreBuilt (C : String → SortName → Prop) (value : Var → Option Term) : Prop := ∀ v u, value v = some u → IsBuilt C u

namespace IsBuilt

theorem congr (h : t == u) (hu : IsBuilt C u) : IsBuilt C t := by
  induction hu generalizing t with
  | @simple u hs hconst _ ih =>
    have hhead := head_of_beq h
    refine .simple (isSimple_of_head hhead ▸ hs) (fun l s hn => hconst l s (constant_of_head hhead hn)) fun c hc => ?_
    obtain ⟨d, hd, hcd⟩ := PairedLists.exists_mem (children_congr h) hc
    exact ih d hd hcd
  | @collection u k hk hC hwhole hkeeps _ ih =>
    have hcontents := Collection.contents_congr (k := k) h
    refine .collection (Collection.of?_congr h ▸ hk) hC ?_ (fun e he => ?_) fun e he => ?_
    · exact BEq.trans h (BEq.trans hwhole (Collection.whole_congr (.symm (.of_alike hcontents))))
    · obtain ⟨f, hf, hef⟩ := PairedLists.exists_mem hcontents he
      exact Collection.keeps_congr hef ▸ hkeeps f hf
    · obtain ⟨f, hf, hef⟩ := PairedLists.exists_mem hcontents he
      exact ih f hf hef.term

theorem var (v : Var) : IsBuilt C (canonical (.var v)) :=
  .simple rfl (fun _ _ hn => by cases hn) (List.forall_mem_nil _)

/-- A constant is one that is allowed. -/
theorem constant (h : IsBuilt C t) {l : String} {s : SortName} (hn : t.node = .app (.const l) [] s) : C l s := by
  cases h with
  | simple _ hconst => exact hconst l s hn
  | collection hk =>
    rw [Collection.of?, hn] at hk
    cases hk

theorem of_collection (h : IsBuilt C t) (hk : Collection.of? t = some k) : k.Admits C ∧ t == k.whole (k.contents t) ∧
    (∀ e ∈ k.contents t, k.keeps e) ∧ ∀ e ∈ k.contents t, IsBuilt C e.term := by
  cases h with
  | simple hs => cases (of?_of_simple hs).symm.trans hk
  | collection hk' hC hwhole hkeeps hbelow =>
    cases hk.symm.trans hk'
    exact ⟨hC, hwhole, hkeeps, hbelow⟩

theorem isSimple (h : IsBuilt C t) (hk : Collection.of? t = none) : t.node.isSimple := by
  cases h with
  | simple hs => exact hs
  | collection hk' => cases hk.symm.trans hk'

/-- What a built term brings to a collection is kept there and built. -/
theorem contents (h : IsBuilt C t) (k : Collection) : ∀ e ∈ k.contents t, k.keeps e ∧ IsBuilt C e.term := by
  intro e he
  by_cases hk : Collection.of? t = some k
  · obtain ⟨-, -, hkeeps, hbelow⟩ := h.of_collection hk
    exact ⟨hkeeps e he, hbelow e he⟩
  · rw [Collection.contents_of_ne hk] at he
    cases hunit : k.isUnit t with
    | true => simp [hunit] at he
    | false =>
      simp only [hunit, Bool.false_eq_true, if_false, List.mem_singleton] at he
      subst he
      exact ⟨Collection.keeps_entryOf hk hunit, by rwa [Collection.term_entryOf]⟩

theorem node_of_isUnit {ops : CollectionOps} (h : ops.isUnit t) : ∃ s, t.node = .app (.const ops.unit) [] s := by
  unfold CollectionOps.isUnit at h
  split at h
  · rename_i hn
    exact ⟨_, eq_of_beq h ▸ hn⟩
  · cases h

/-- Among admitted constants only the unit of a user operator is one, and it is the empty collection. -/
theorem beq_whole_nil (h : IsBuilt C t) (hC : k.Admits C) (hunit : k.isUnit t) : t == k.whole [] := by
  cases k with
  | sequence => cases hunit
  | set ops =>
    obtain ⟨s, hn⟩ := node_of_isUnit hunit
    exact (hC s (h.constant hn)).elim
  | list ops =>
    obtain ⟨s, hn⟩ := node_of_isUnit hunit
    cases hop : ops.isOperator with
    | false => exact ((Collection.admits_wrapped hop).mp hC s (h.constant hn)).elim
    | true =>
      have hs := ((Collection.admits_operator hop).mp hC).2 s (h.constant hn)
      have hwhole : Collection.whole (.list ops) [] = ops.unitTerm := if_pos hop
      rw [hwhole]
      exact beq_of_node_eq (hn.trans (hs ▸ rfl))

/-- A built term is the collection of what it brings. -/
theorem beq_whole (h : IsBuilt C t) (hC : k.Admits C) : t == k.whole (k.contents t) := by
  by_cases hk : Collection.of? t = some k
  · exact (h.of_collection hk).2.1
  · rw [Collection.contents_of_ne hk]
    cases hunit : k.isUnit t with
    | false => exact BEq.symm (Collection.whole_entryOf hk)
    | true => exact h.beq_whole_nil hC hunit

/-- The collection of built entries that it keeps is built. -/
theorem whole (hC : k.Admits C) (h : ∀ e ∈ w, k.keeps e ∧ IsBuilt C e.term) : IsBuilt C (k.whole w) := by
  have hkeeps := fun e he => (h e he).1
  have hsame := Collection.contents_whole hkeeps
  rcases Collection.whole_cases hkeeps with hk | ⟨e, rfl, -, hwhole⟩ | ⟨ops, rfl, hop, -, hwhole⟩
  · refine .collection hk hC (Collection.whole_congr hsame.symm) (fun e he => ?_) fun e he => ?_
    · obtain ⟨f, hf, hef⟩ := hsame.exists_mem he
      exact Collection.keeps_congr hef ▸ (h f hf).1
    · obtain ⟨f, hf, hef⟩ := hsame.exists_mem he
      exact (h f hf).2.congr hef.term
  · exact (h e List.mem_cons_self).2.congr hwhole
  · rw [hwhole]
    refine .simple rfl ?_ (List.forall_mem_nil _)
    rintro l s ⟨⟩
    exact ((Collection.admits_operator hop).mp hC).1

/-- What a built term brings as an entry is kept there and built. -/
theorem brings {e : Entry} (h : IsBuilt C e.term) : ∀ f ∈ k.brings e, k.keeps f ∧ IsBuilt C f.term := by
  intro f hf
  cases e with
  | part t => exact h.contents k f hf
  | item t =>
    cases hk : k.isWrapped with
    | false =>
      simp only [Collection.brings, hk, Bool.false_eq_true, if_false] at hf
      exact h.contents k f hf
    | true =>
      simp only [Collection.brings, hk, if_true, List.mem_singleton] at hf
      subst hf
      refine ⟨?_, h⟩
      cases k with
      | sequence => cases hk
      | set ops => rfl
      | list ops =>
        simp only [Collection.isWrapped] at hk
        simp [Collection.keeps, Entry.fits, ListParts.isItem, hk]

theorem act {f : Term → Term} (h : ∀ e ∈ w, IsBuilt C (f e.term)) : ∀ e ∈ k.act f w, k.keeps e ∧ IsBuilt C e.term := by
  intro e he
  obtain ⟨e', he', he⟩ := List.mem_flatMap.mp he
  refine brings ?_ e he
  rw [Entry.term_map]
  exact h e' he'

/-- Instances of built terms are built. -/
theorem replaced (h : IsBuilt C t) (hvalue : AreBuilt C value) : IsBuilt C (t.replaced value) := by
  induction h with
  | @simple t hs hconst hbelow ih =>
    cases hvar : t.isVar with
    | true =>
      obtain ⟨v, hn⟩ := exists_var hvar
      rw [replaced_of_var hn]
      cases hv : value v with
      | none => exact .simple hs hconst hbelow
      | some u => exact hvalue v u hv
    | false =>
      obtain ⟨hhead, hchildren⟩ := replaced_of_simple value hs hvar
      refine .simple (isSimple_of_head hhead ▸ hs) (fun l s hn => hconst l s (constant_of_head hhead hn)) ?_
      rw [hchildren]
      exact List.forall_mem_map.mpr ih
  | collection hk hC _ _ _ ih =>
    rw [replaced_of_collection hk]
    exact whole hC (act ih)

end IsBuilt

/-! ### Composition -/

/-- Constants stay as they are. -/
theorem replaced_of_constant (value : Var → Option Term) {l : String} {s : SortName} (hn : t.node = .app (.const l) [] s) :
    t.replaced value == t := by
  have hvar : t.isVar = false := by rw [isVar, hn]; rfl
  have hs : t.node.isSimple := by rw [hn]; rfl
  obtain ⟨hhead, hchildren⟩ := replaced_of_simple value hs hvar
  refine beq_of_head hhead ?_
  rw [hchildren, children, hn]
  exact .nil

section Acting
variable (hvalue : AreBuilt C value)
include hvalue

/-- An instance brings what the entries of the term bring once they are replaced. -/
theorem contents_replaced (h : IsBuilt C t) (k : Collection) :
    k.Same (k.contents (t.replaced value)) (k.act (replaced value) (k.contents t)) := by
  by_cases hk : Collection.of? t = some k
  · have hinstances : ∀ e ∈ k.contents t, IsBuilt C (e.term.replaced value) := fun e he =>
      (h.contents k e he).2.replaced hvalue
    rw [replaced_of_collection hk]
    exact Collection.contents_whole fun e he => (IsBuilt.act hinstances e he).1
  · rw [Collection.contents_of_ne hk]
    cases hunit : k.isUnit t with
    | false =>
      have hopened := (k.isOpened_entryOf t).brings_map (replaced value)
      rw [Collection.term_entryOf] at hopened
      simp only [Bool.false_eq_true, if_false, Collection.act, List.flatMap_singleton, hopened]
      exact .refl k _
    | true =>
      obtain ⟨l, s, hn⟩ : ∃ l s, t.node = .app (.const l) [] s := by
        cases k with
        | sequence => cases hunit
        | list ops | set ops => exact ⟨_, IsBuilt.node_of_isUnit hunit⟩
      have hself := Collection.contents_congr (k := k) (replaced_of_constant value hn)
      rw [Collection.contents_of_ne hk, hunit] at hself
      exact .of_alike hself

/-- An entry brings the same when it is replaced before and after. -/
theorem act_brings {e : Entry} (he : IsBuilt C e.term) (k : Collection) :
    k.Same (k.act (replaced value) (k.brings e)) (k.brings (e.map (replaced value))) := by
  cases e with
  | part t => exact (contents_replaced hvalue he k).symm
  | item t =>
    cases hk : k.isWrapped with
    | true =>
      simp only [Collection.brings, Entry.map, hk, if_true, Collection.act, List.flatMap_singleton]
      exact .refl k _
    | false =>
      simp only [Collection.brings, Entry.map, hk, Bool.false_eq_true, if_false]
      exact (contents_replaced hvalue he k).symm

/-- However a collection stands for its entries, its instance is the collection of what they bring. -/
theorem replaced_whole (hC : k.Admits C) (h : ∀ e ∈ w, k.keeps e ∧ IsBuilt C e.term) :
    (k.whole w).replaced value == k.whole (k.act (replaced value) w) := by
  have hkeeps := fun e he => (h e he).1
  rcases Collection.whole_cases hkeeps with hk | ⟨e, rfl, hopened, hwhole⟩ | ⟨ops, rfl, hop, rfl, hwhole⟩
  · rw [replaced_of_collection hk]
    exact Collection.whole_congr (Collection.act_same replaced_congr (Collection.contents_whole hkeeps))
  · have hbuilt := (h e List.mem_cons_self).2.replaced hvalue
    rw [Collection.act, List.flatMap_singleton, hopened.brings_map]
    exact BEq.trans (replaced_congr hwhole) (hbuilt.beq_whole hC)
  · have hempty : Collection.whole (.list ops) [] = ops.unitTerm := if_pos hop
    rw [hwhole]
    refine BEq.trans (replaced_of_constant value rfl) ?_
    rw [Collection.act, List.flatMap_nil, hempty]
    exact BEq.refl _

end Acting

/-- Replacing variables twice is replacing each of them by the instance of its value. -/
theorem replaced_replaced {σ τ ρ : Var → Option Term} (h : IsBuilt C t) (hσ : AreBuilt C σ) (hτ : AreBuilt C τ)
    (hρ : ∀ v : Var, ((canonical (.var v)).replaced σ).replaced τ == (canonical (.var v)).replaced ρ) :
    (t.replaced σ).replaced τ == t.replaced ρ := by
  induction h with
  | @simple t hs hconst hbelow ih =>
    cases hvar : t.isVar with
    | true =>
      obtain ⟨v, hn⟩ := exists_var hvar
      have ht : t == canonical (.var v) := beq_of_node_eq hn
      exact BEq.trans (replaced_congr (replaced_congr ht)) (BEq.trans (hρ v) (replaced_congr (BEq.symm ht)))
    | false =>
      obtain ⟨hhead, hchildren⟩ := replaced_of_simple σ hs hvar
      obtain ⟨hhead', hchildren'⟩ := replaced_of_simple τ (isSimple_of_head hhead ▸ hs)
        (isVar_of_head hhead ▸ hvar)
      obtain ⟨hhead'', hchildren''⟩ := replaced_of_simple ρ hs hvar
      refine beq_of_head (hhead'.trans (hhead.trans hhead''.symm)) ?_
      rw [hchildren', hchildren, hchildren'', List.map_map]
      exact List.forall₂_map_left_iff.mpr (List.forall₂_map_right_iff.mpr (List.forall₂_same.mpr ih))
  | @collection t k hk hC hwhole hkeeps hbelow ih =>
    have hinstances : ∀ e ∈ k.contents t, IsBuilt C (e.term.replaced σ) := fun e he => (hbelow e he).replaced hσ
    rw [replaced_of_collection hk, replaced_of_collection hk]
    refine BEq.trans (replaced_whole hτ hC (IsBuilt.act hinstances)) (Collection.whole_congr ?_)
    rw [Collection.act, Collection.act, List.flatMap_assoc]
    refine .flatMap (List.forall₂_same.mpr fun e he => ?_)
    have hstep : IsBuilt C (e.map (replaced σ)).term := by
      rw [Entry.term_map]
      exact hinstances e he
    refine (act_brings hτ hstep k).trans (.of_alike (Collection.brings_congr ?_))
    rw [Entry.map_map]
    exact (Entry.Alike.refl e).map (ih e he)

end Term

end RuleCompiler
