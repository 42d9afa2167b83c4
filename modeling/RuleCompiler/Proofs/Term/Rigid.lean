import RuleCompiler.Proofs.Builder.List
import RuleCompiler.Proofs.Builder.Map
import RuleCompiler.Proofs.Builder.Cells
import RuleCompiler.Proofs.Term.Walk

/-! # Rigid terms

Where no variable stands for several items, an unknown part or the rest of a collection, instances have
the nodes of their terms, over instances of the children. -/

namespace RuleCompiler

open Build (Always)

/-- Whether the term is a single item of every sequence that it is put into. -/
def Term.isItem (t : Term) : Bool :=
  match t.node with
  | .seq .. => false
  | .var v => v.sort != .k
  | _ => true

/-- Whether a node is made of its children as they are, whatever these are instances of: sequences have
single items, lists, maps and cells no unknown parts, keys no variables, and cells different labels. -/
def Node.isRigid : Node Term → Bool
  | .var v => !v.isDontCare
  | .seq items frame => frame.isNone && items.length != 1 && items.all Term.isItem
  | .list ops _ base right => !ops.isOperator && base.isEmpty && right.isEmpty
  | .map _ entries base => decide (entries.Pairwise fun a b => a.1.cmp b.1 = .lt) &&
      entries.all (·.1.isGround) && base.isEmpty
  | .cells cs frames => decide (cs.Pairwise fun c d => compare c.label d.label = .lt) && frames.isEmpty
  | .set .. | .rewrite .. | .disjunction _ | .rightSides _ => false
  | _ => true

namespace Term

/-- The second term may take the place of the first: it equals a ground one, and is an item where the
first is one. -/
structure Steady (t u : Term) : Prop where
  ground : t.isGround → u == t
  item : t.isItem → u.isItem

variable {t u : Term}

theorem Steady.refl (t : Term) : Steady t t := ⟨fun _ => BEq.refl t, id⟩

theorem isItem_of_alike {R : Term → Term → Prop} (h : Node.Alike R t.node u.node) :
    t.isItem = u.isItem := by
  unfold isItem
  generalize t.node = m, u.node = n at h
  cases h <;> rfl

/-! ### Rebuilding -/

theorem allItems_of_items {items : List Term} :
    SequenceParts.allItems ⟨items, none⟩ = pure items := rfl

theorem add_of_isItem {items : List Term} (h : t.isItem) :
    SequenceParts.add ⟨items, none⟩ t = pure ⟨items ++ [t], none⟩ := by
  unfold SequenceParts.add
  unfold isItem at h
  split
  · rename_i hn
    rw [hn] at h
    cases h
  · rename_i hn
    rw [hn] at h
    cases h
  · rename_i v hn
    rw [hn] at h
    simp_all [allItems_of_items]
  · rw [allItems_of_items, pure_bind]

theorem addAll_of_isItem {ts : List Term} : ∀ {items : List Term}, (∀ t ∈ ts, t.isItem) →
    SequenceParts.addAll ⟨items, none⟩ ts = pure ⟨items ++ ts, none⟩ := by
  induction ts with
  | nil =>
    intro items _
    rw [SequenceParts.addAll, List.foldlM_nil, List.append_nil]
  | cons t ts ih =>
    intro items h
    obtain ⟨ht, hts⟩ := List.forall_mem_cons.mp h
    rw [SequenceParts.addAll, List.foldlM_cons, add_of_isItem ht, pure_bind, ← SequenceParts.addAll,
      ih hts, List.append_assoc, List.singleton_append]

/-- Items make the sequence of them; one alone stands for itself. -/
theorem sequence_of_isItem {ts : List Term} (h : ∀ t ∈ ts, t.isItem) :
    Term.sequence ts = SequenceParts.build ⟨ts, none⟩ := by
  have hadd : SequenceParts.addAll {} ts = pure ⟨ts, none⟩ := addAll_of_isItem h
  rw [Term.sequence, hadd, pure_bind]

end Term

/-- Entries in strict order of their keys are set where they stand. -/
theorem MapParts.putAll_of_sorted {es : List (Term × Term)}
    (h : es.Pairwise fun a b => a.1.cmp b.1 = .lt) : putAll es [] = es := by
  have hperm : (putAll es []).Perm es := perm_putAll (KeysDiffer.of_sorted h)
  exact hperm.eq_of_pairwise (fun _ _ _ _ h h' => (Term.not_lt_lt h h').elim)
    (sorted_putAll .nil) h

/-- Cells with labels in strict order stay where they stand. -/
theorem CellParts.sort_of_sorted {cs : List Cell}
    (h : cs.Pairwise fun c d => compare c.label d.label = .lt) :
    SortedList.sort compareCells cs = cs := by
  refine SortedList.sort_eq_self (h.imp fun {c d} hlt hgt => ?_)
  have hswap : compare d.label c.label = .gt := Std.OrientedCmp.gt_of_lt hlt
  rw [compareCells, hswap] at hgt
  cases hgt

namespace Term
variable {t u : Term}

/-- The node of `t` over other children. -/
structure Over (t : Term) (cs : List Term) (u : Term) : Prop where
  head : u.node.head = t.node.head
  children : u.children = cs

theorem always_over {n : Node Term} {cs : List Term} (hhead : n.head = t.node.head)
    (hchildren : n.children = cs) : Always (new n) (Over t cs) :=
  (always_new n).mono fun u hu => ⟨by rw [hu, hhead], by rw [Term.children, hu, hchildren]⟩

section Rebuild
variable {cs : List Term} (hcs : List.Forall₂ Steady t.children cs)
include hcs

theorem always_rebuild_seq {items : List Term} (hn : t.node = .seq items none)
    (hone : items.length ≠ 1) (hitems : ∀ c ∈ items, c.isItem) : Always (t.rebuild cs []) (Over t cs) := by
  rw [Term.children, hn] at hcs
  have hlen : items.length = cs.length := hcs.length_eq
  have hcitems : ∀ c ∈ cs, c.isItem := fun c hc => by
    obtain ⟨d, hd, hdc⟩ := PairedLists.exists_mem hcs.flip hc
    exact hdc.item (hitems d hd)
  have hbuild : SequenceParts.build ⟨cs, none⟩ = Term.new (.seq cs none) := by
    rcases cs with _ | ⟨c, _ | _⟩
    · rfl
    · exact absurd hlen hone
    · rfl
  rw [rebuild_seq hn, List.append_nil, sequence_of_isItem hcitems, hbuild]
  refine always_over ?_ rfl
  rw [hn, Node.head, Node.head, hlen]

theorem always_rebuild_list {ops : CollectionOps} {left : List Term}
    (hn : t.node = .list ops left [] []) (hop : ops.isOperator = false) :
    Always (t.rebuild cs []) (Over t cs) := by
  have hlen : cs.length = left.length := by
    rw [Term.children, hn] at hcs
    simpa [Node.children] using hcs.length_eq.symm
  have hrebuild : t.rebuild cs [] = Term.new (.list ops cs [] []) := by
    have heq : t.rebuild (cs ++ ([] ++ [])) [] = _ := ListParts.rebuild_eq hn hlen rfl
    have hadd : cs.foldlM (ListParts.addPart ops) { ops } = pure (cs.foldl ListParts.addItem { ops }) :=
      ListParts.foldlM_addPart (fun h => absurd h (by simp [hop])) rfl
    rw [List.append_nil, List.append_nil, hadd, ListParts.foldl_addItem rfl] at heq
    simp only [List.foldlM_nil, pure_bind, List.nil_append] at heq
    rw [heq, ListParts.build_eq fun h => absurd h (by simp [hop])]
  rw [hrebuild]
  refine always_over ?_ (List.append_nil cs)
  rw [hn, Node.head, Node.head, hlen]

theorem always_rebuild_map {ops : CollectionOps} {entries : List (Term × Term)}
    (hn : t.node = .map ops entries []) (hsorted : entries.Pairwise fun a b => a.1.cmp b.1 = .lt)
    (hground : ∀ e ∈ entries, e.1.isGround) : Always (t.rebuild cs []) (Over t cs) := by
  rw [Term.children, hn, Node.children, List.append_nil] at hcs
  obtain ⟨es, rfl, hes⟩ := PairedLists.exists_entries hcs
  have hkeys : es.map (·.1.code) = entries.map (·.1.code) := by
    refine (PairedLists.map_eq (PairedLists.imp_mem hes.flip fun e' _ e he h => ?_))
    exact beq_iff.mp (h.1.ground (hground e he))
  have hsorted' : es.Pairwise fun a b => a.1.cmp b.1 = .lt := by
    have hcodes : (entries.map (·.1.code)).Pairwise fun a b => cmpCode a b = .lt :=
      List.pairwise_map.mpr hsorted
    rw [← hkeys] at hcodes
    exact List.pairwise_map.mp hcodes
  have hrebuild : t.rebuild (es.flatMap (fun e => [e.1, e.2]) ++ []) [] = _ :=
    MapParts.rebuild_eq hn hes.length_eq.symm
  rw [List.append_nil, List.foldl_nil, MapParts.putAll_of_sorted hsorted', MapParts.build_eq] at hrebuild
  rw [hrebuild]
  refine always_over ?_ (List.append_nil _)
  rw [hn, Node.head, Node.head, hes.length_eq]

theorem always_rebuild_cells {cells : List Cell} (hn : t.node = .cells cells [])
    (hsorted : cells.Pairwise fun c d => compare c.label d.label = .lt) :
    Always (t.rebuild cs []) (Over t cs) := by
  have hlen : cells.length = cs.length := by
    rw [Term.children, hn] at hcs
    simpa [Node.children] using hcs.length_eq
  have hlabels : (CellParts.withContents cells cs).map (·.label) = cells.map (·.label) :=
    CellParts.map_withContents (fun _ _ => rfl) hlen
  have hsorted' : (CellParts.withContents cells cs).Pairwise
      fun c d => compare c.label d.label = .lt := by
    have hall : (cells.map (·.label)).Pairwise fun a b => compare a b = .lt :=
      List.pairwise_map.mpr hsorted
    rw [← hlabels] at hall
    exact List.pairwise_map.mp hall
  rw [CellParts.rebuild_eq hn, cellsFrom, List.foldlM_nil, pure_bind, CellParts.build_eq,
    CellParts.sort_of_sorted hsorted']
  refine always_over ?_ (CellParts.map_content_withContents hlen)
  have hmany := congrArg List.length hlabels
  rw [List.length_map, List.length_map] at hmany
  rw [hn, Node.head, Node.head, hmany, CellParts.map_withContents (fun _ _ => rfl) hlen]

/-- A rigid node is made again over whatever may take the place of its children. -/
theorem always_rebuild (ht : t.node.isRigid) : Always (t.rebuild cs []) (Over t cs) := by
  have hself (hnone : t.children = []) (hrebuild : t.rebuild cs [] = pure t) :
      Always (t.rebuild cs []) (Over t cs) := by
    rw [hnone] at hcs
    cases hcs
    rw [hrebuild]
    exact .pure ⟨rfl, hnone⟩
  generalize hn : t.node = n at ht
  cases n with
  | app l args s =>
    have hargs := hcs
    rw [Term.children, hn] at hargs
    cases l with
    | const l =>
      rw [rebuild_app hn]
      refine always_over ?_ rfl
      rw [hn, Node.head, Node.head]
      exact congrArg (fun k => [(1, l), (k, s.name)]) hargs.length_eq.symm
    | freezer f =>
      cases hargs with
      | cons hf hargs =>
        rw [rebuild_freezer hn]
        refine always_over ?_ rfl
        rw [hn, Node.head, Node.head, hargs.length_eq]
  | seq items frame =>
    simp only [Node.isRigid, Bool.and_eq_true, List.all_eq_true, Option.isNone_iff_eq_none,
      bne_iff_ne] at ht
    obtain ⟨⟨rfl, hone⟩, hitems⟩ := ht
    exact always_rebuild_seq hcs hn hone hitems
  | list ops left base right =>
    simp only [Node.isRigid, Bool.and_eq_true, Bool.not_eq_true', List.isEmpty_iff] at ht
    obtain ⟨⟨hop, rfl⟩, rfl⟩ := ht
    exact always_rebuild_list hcs hn hop
  | map ops entries base =>
    simp only [Node.isRigid, Bool.and_eq_true, decide_eq_true_eq, List.all_eq_true,
      List.isEmpty_iff] at ht
    obtain ⟨⟨hsorted, hground⟩, rfl⟩ := ht
    exact always_rebuild_map hcs hn hsorted hground
  | cells cells frames =>
    simp only [Node.isRigid, Bool.and_eq_true, decide_eq_true_eq, List.isEmpty_iff] at ht
    obtain ⟨hsorted, rfl⟩ := ht
    exact always_rebuild_cells hcs hn hsorted
  | set | rewrite | disjunction | rightSides => cases ht
  | _ =>
    refine hself (by rw [Term.children, hn]; rfl) ?_
    unfold rebuild
    rw [hn]

end Rebuild

end Term

end RuleCompiler
