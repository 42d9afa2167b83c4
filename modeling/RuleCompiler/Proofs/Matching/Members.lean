import RuleCompiler.Formula.Basic
import RuleCompiler.Proofs.Matching.Reads

/-! # Members of instances of collections

Under bindings every entry, element and item of a collection becomes one of the instance. The instance may
have more, from the unknown parts, and what was different may become equal; so something is known to be absent
only where there is no unknown part and nothing becomes equal to it. -/

namespace RuleCompiler

open Build (Always)
open Matching (Reads)

namespace Term

/-- The entries of a map. -/
def mapEntries (t : Term) : List (Term × Term) :=
  match t.node with
  | .map _ entries _ => entries
  | _ => []

/-- The keys of a map. -/
def mapKeys (t : Term) : List Term := t.mapEntries.map (·.1)

/-- The elements of a set. -/
def setElements (t : Term) : List Term :=
  match t.node with
  | .set _ elements _ => elements
  | _ => []

/-- The items of a list without unknown parts. -/
def listItems (t : Term) : List Term :=
  match t.node with
  | .list _ left [] _ => left
  | _ => []

section Congruence
variable {t u : Term}

theorem mapEntries_congr (h : t == u) :
    List.Forall₂ (fun e f : Term × Term => e.1 == f.1 ∧ e.2 == f.2) t.mapEntries u.mapEntries := by
  have h := alike_of_beq h
  unfold mapEntries
  generalize t.node = m, u.node = n at h
  cases h with
  | map he _ => exact he
  | _ => exact .nil

theorem setElements_congr (h : t == u) : Equal t.setElements u.setElements := by
  have h := alike_of_beq h
  unfold setElements
  generalize t.node = m, u.node = n at h
  cases h with
  | set he _ => exact he
  | _ => exact .nil

theorem listItems_congr (h : t == u) : Equal t.listItems u.listItems := by
  have h := alike_of_beq h
  unfold listItems
  generalize t.node = m, u.node = n at h
  cases h with
  | list hl hb _ =>
    cases hb with
    | nil => exact hl
    | cons => exact .nil
  | _ => exact .nil

end Congruence

end Term

/-! ### Entries of maps -/

namespace SortedList
variable {key : Term} {es es' : List (Term × Term)}

/-- Equal entries have equal values for a key. -/
theorem exists_get?_of_paired {v : Term}
    (h : List.Forall₂ (fun e f : Term × Term => e.1 == f.1 ∧ e.2 == f.2) es es') (hv : get? key es = some v) :
    ∃ w, get? key es' = some w ∧ v == w := by
  induction h with
  | nil => cases hv
  | @cons e f es es' hef _ ih =>
    rw [get?_cons_beq, BEq.congr_left hef.1] at hv
    rw [get?_cons_beq]
    by_cases hf : f.1 == key
    · rw [if_pos hf] at hv ⊢
      cases hv
      exact ⟨f.2, rfl, hef.2⟩
    · rw [if_neg hf] at hv ⊢
      exact ih hv

theorem isSome_get? : (get? key es).isSome ↔ ∃ e ∈ es, e.1 == key := by
  rw [get?, Option.isSome_map, List.find?_isSome]

theorem get?_eq_none : get? key es = none ↔ (es.map (·.1)).contains key = false := by
  rw [← Option.not_isSome_iff_eq_none, isSome_get?, ← List.any_beq', List.any_map, ← Bool.not_eq_true,
    List.any_eq_true]
  rfl

theorem of_get?_eq_some {v : Term} (h : get? key es = some v) : ∃ e ∈ es, e.1 == key ∧ e.2 = v := by
  obtain ⟨e, he, rfl⟩ := Option.map_eq_some_iff.mp h
  exact ⟨e, List.mem_of_find?_eq_some he, List.find?_some (p := fun e : Term × Term => e.1 == key) he, rfl⟩

end SortedList

namespace MapParts
variable {ops : CollectionOps}

theorem isSome_get?_putAll {key : Term} {es : List (Term × Term)} : ∀ {l : List (Term × Term)},
    (SortedList.get? key (putAll es l)).isSome ↔
      (SortedList.get? key es).isSome ∨ (SortedList.get? key l).isSome := by
  induction es with
  | nil => simp [putAll, SortedList.get?]
  | cons e es ih =>
    intro l
    have hput : putAll (e :: es) l = putAll es (SortedList.put Term.cmp e.1 e.2 l) := rfl
    rw [hput, ih, SortedList.get?_put Term.cmp_eq_iff, SortedList.get?_cons_beq]
    split <;> simp

theorem of_get?_putAll {key v : Term} {es : List (Term × Term)} : ∀ {l : List (Term × Term)},
    SortedList.get? key (putAll es l) = some v →
      (∃ e ∈ es, e.1 == key ∧ e.2 = v) ∨ SortedList.get? key l = some v := by
  induction es with
  | nil => exact .inr
  | cons e es ih =>
    intro l h
    rcases ih h with ⟨f, hf, hv⟩ | h
    · exact .inl ⟨f, List.mem_cons_of_mem e hf, hv⟩
    · rw [SortedList.get?_put Term.cmp_eq_iff] at h
      split at h
      · exact .inl ⟨e, List.mem_cons_self, ‹_›, Option.some.inj h⟩
      · exact .inr h

/-- The entries that a term brings to a map of `ops`. -/
def brought (ops : CollectionOps) (t : Term) : List (Term × Term) :=
  if t.isMapOf ops then t.mapEntries else []

theorem entries_concat (p : MapParts) (t : Term) :
    (p.concat t).entries = putAll (brought p.ops t) p.entries ∧ (p.concat t).ops = p.ops := by
  unfold concat brought Term.isMapOf Term.mapEntries
  cases hn : t.node with
  | map ops es base =>
    by_cases hops : ops = p.ops
    · simp [hops, foldl_put]
    · simp [hops, putAll]
  | _ =>
    dsimp only
    split <;> exact ⟨rfl, rfl⟩

theorem entries_foldl_concat (bs : List Term) : ∀ p : MapParts,
    (bs.foldl concat p).entries = putAll (bs.flatMap (brought p.ops)) p.entries := by
  induction bs with
  | nil => exact fun _ => rfl
  | cons b bs ih =>
    intro p
    obtain ⟨hentries, hops⟩ := p.entries_concat b
    rw [List.foldl_cons, ih, hentries, hops, List.flatMap_cons, putAll, putAll, putAll, List.foldl_append]

/-- A map with entries or without unknown parts is built as one. -/
theorem always_mapEntries {p : MapParts} (h : p.entries ≠ [] ∨ p.base = []) :
    Always p.build fun u => u.mapEntries = p.entries := by
  have hbuild : p.build = Term.new (.map p.ops p.entries (SortedList.sort Term.cmp p.base)) := by
    unfold build
    split
    · rename_i hnil hone
      rw [hnil, hone] at h
      simp at h
    · rfl
  rw [hbuild]
  exact (Term.always_new _).mono fun u hu => by rw [Term.mapEntries, hu]

end MapParts

/-! ### Elements of sets -/

namespace SortedList

/-- An element that is added is there afterwards, and so is what was there before. -/
theorem exists_mem_addNew {t u : Term} {l : List Term} :
    (∃ v ∈ addNew Term.cmp t l, v == u) ↔ t == u ∨ ∃ v ∈ l, v == u := by
  induction l with
  | nil => simp [addNew]
  | cons w l ih =>
    rw [addNew]
    cases hc : t.cmp w with
    | lt => simp
    | eq =>
      have hw : t == w := Term.cmp_eq_iff.mp hc
      simp [BEq.congr_left hw]
    | gt => simp [ih, or_left_comm]

end SortedList

namespace SetParts
variable {ops : CollectionOps}

theorem exists_mem_addAll {u : Term} {ts : List Term} : ∀ {l : List Term},
    (∃ v ∈ addAll ts l, v == u) ↔ (∃ v ∈ ts, v == u) ∨ ∃ v ∈ l, v == u := by
  induction ts with
  | nil => simp [addAll]
  | cons t ts ih =>
    intro l
    have hadd : addAll (t :: ts) l = addAll ts (SortedList.addNew Term.cmp t l) := rfl
    rw [hadd, ih, SortedList.exists_mem_addNew]
    simp [or_left_comm, or_assoc]

/-- The elements that a term brings to a set of `ops`. -/
def brought (ops : CollectionOps) (t : Term) : List Term :=
  if t.isSetOf ops then t.setElements else []

theorem elements_concat (p : SetParts) (t : Term) :
    (p.concat t).elements = addAll (brought p.ops t) p.elements ∧ (p.concat t).ops = p.ops := by
  unfold concat brought Term.isSetOf Term.setElements
  cases hn : t.node with
  | set ops es base =>
    by_cases hops : ops = p.ops
    · simp [hops, foldl_add]
    · simp [hops, addAll]
  | _ =>
    dsimp only
    split <;> exact ⟨rfl, rfl⟩

theorem elements_foldl_concat (bs : List Term) : ∀ p : SetParts,
    (bs.foldl concat p).elements = addAll (bs.flatMap (brought p.ops)) p.elements := by
  induction bs with
  | nil => exact fun _ => rfl
  | cons b bs ih =>
    intro p
    obtain ⟨helements, hops⟩ := p.elements_concat b
    rw [List.foldl_cons, ih, helements, hops, List.flatMap_cons, addAll, addAll, addAll, List.foldl_append]

/-- A set with elements or without unknown parts is built as one. -/
theorem always_setElements {p : SetParts} (h : p.elements ≠ [] ∨ p.base = []) :
    Always p.build fun u => u.setElements = p.elements := by
  have hbuild : p.build = Term.new (.set p.ops p.elements (SortedList.sort Term.cmp p.base)) := by
    unfold build
    split
    · rename_i hnil hone
      rw [hnil, hone] at h
      simp at h
    · rfl
  rw [hbuild]
  exact (Term.always_new _).mono fun u hu => by rw [Term.setElements, hu]

end SetParts

/-! ### Members of instances -/

namespace Matching
variable {θ : Substitution} {m m' s s' k k' : Term} {ops : CollectionOps} {es : List (Term × Term)}
  {ts base ks parts : List Term} {view : Term → List Term}

/-- What a map with entries has come to: its keys are all there, and an entry is one of its own unless an
unknown part brings the key. -/
structure HasEntries (es : List (Term × Term)) (parts : List Term) (m : Term) : Prop where
  mem : ∀ e ∈ es, (SortedList.get? e.1 m.mapEntries).isSome
  origin : ∀ k w, SortedList.get? k m.mapEntries = some w →
    (∃ e ∈ es, e.1 == k ∧ e.2 == w) ∨ ∃ b ∈ parts, (SortedList.get? k b.mapEntries).isSome

theorem hasEntries_of_map (hn : m.node = .map ops es base) : HasEntries es base m := by
  have hentries : m.mapEntries = es := by rw [Term.mapEntries, hn]
  refine ⟨fun e he => ?_, fun k w hw => ?_⟩
  · rw [hentries]
    exact SortedList.isSome_get?.mpr ⟨e, he, BEq.rfl⟩
  · rw [hentries] at hw
    obtain ⟨e, he, hkey, rfl⟩ := SortedList.of_get?_eq_some hw
    exact .inl ⟨e, he, hkey, BEq.rfl⟩

theorem hasEntries_of_build (hsome : es ≠ [] ∨ base = [])
    (h : Always (base.foldl MapParts.concat { ops, entries := MapParts.putAll es [] }).build (· == m)) :
    HasEntries es base m := by
  have hentries : (base.foldl MapParts.concat { ops, entries := MapParts.putAll es [] }).entries =
      MapParts.putAll (base.flatMap (MapParts.brought ops)) (MapParts.putAll es []) :=
    MapParts.entries_foldl_concat base _
  have hput {e : Term × Term} (he : e ∈ es) : (SortedList.get? e.1
      (MapParts.putAll (base.flatMap (MapParts.brought ops)) (MapParts.putAll es []))).isSome := by
    rw [MapParts.isSome_get?_putAll, MapParts.isSome_get?_putAll]
    exact .inr (.inl (SortedList.isSome_get?.mpr ⟨e, he, BEq.rfl⟩))
  have hbuilt : Always (base.foldl MapParts.concat { ops, entries := MapParts.putAll es [] }).build
      fun u => u.mapEntries = MapParts.putAll (base.flatMap (MapParts.brought ops)) (MapParts.putAll es []) := by
    rw [← hentries]
    refine MapParts.always_mapEntries (hsome.imp (fun hne hnil => ?_) fun hnil => by rw [hnil]; rfl)
    obtain ⟨e, he⟩ := List.exists_mem_of_ne_nil es hne
    have hsome := hput he
    rw [← hentries, hnil] at hsome
    cases hsome
  obtain ⟨u, hu, heq⟩ := h.exists_canReturn
  have hu := hbuilt.returns u hu
  refine ⟨fun e he => ?_, fun k w hw => ?_⟩
  · obtain ⟨v, hv⟩ := Option.isSome_iff_exists.mp (hu ▸ hput he)
    obtain ⟨w, hw, -⟩ := SortedList.exists_get?_of_paired (Term.mapEntries_congr heq) hv
    rw [hw]
    rfl
  · obtain ⟨v, hv, hwv⟩ := SortedList.exists_get?_of_paired (Term.mapEntries_congr (BEq.symm heq)) hw
    rw [hu] at hv
    rcases MapParts.of_get?_putAll hv with ⟨e, he, hkey, rfl⟩ | hv
    · obtain ⟨b, hb, he⟩ := List.mem_flatMap.mp he
      refine .inr ⟨b, hb, SortedList.isSome_get?.mpr ⟨e, ?_, hkey⟩⟩
      rw [MapParts.brought] at he
      split at he
      · exact he
      · cases he
    · rcases MapParts.of_get?_putAll hv with ⟨e, he, hkey, rfl⟩ | hv
      · exact .inl ⟨e, he, hkey, BEq.symm hwv⟩
      · cases hv

/-- The members of a collection are those that are listed, and those that its unknown parts bring. -/
structure Gathers (view : Term → List Term) (ks parts : List Term) (t : Term) : Prop where
  mem : ∀ k ∈ ks, ∃ u ∈ view t, u == k
  origin : ∀ u ∈ view t, (∃ k ∈ ks, k == u) ∨ ∃ b ∈ parts, ∃ v ∈ view b, v == u

theorem HasEntries.gathers (h : HasEntries es base m) : Gathers Term.mapKeys (es.map (·.1)) base m := by
  have hkey {k b : Term} : (SortedList.get? k b.mapEntries).isSome ↔ ∃ v ∈ b.mapKeys, v == k := by
    rw [SortedList.isSome_get?, Term.mapKeys]
    simp
  refine ⟨fun k hk => ?_, fun u hu => ?_⟩
  · obtain ⟨e, he, rfl⟩ := List.mem_map.mp hk
    exact hkey.mp (h.mem e he)
  · obtain ⟨w, hw⟩ := Option.isSome_iff_exists.mp (hkey.mpr ⟨u, hu, BEq.rfl⟩)
    rcases h.origin u w hw with ⟨e, he, hbeq, -⟩ | ⟨b, hb, hsome⟩
    · exact .inl ⟨e.1, List.mem_map_of_mem he, hbeq⟩
    · exact .inr ⟨b, hb, hkey.mp hsome⟩

theorem gathers_of_set (hn : s.node = .set ops ts base) : Gathers Term.setElements ts base s := by
  have helements : s.setElements = ts := by rw [Term.setElements, hn]
  exact ⟨fun k hk => ⟨k, helements ▸ hk, BEq.rfl⟩, fun u hu => .inl ⟨u, helements ▸ hu, BEq.rfl⟩⟩

theorem gathers_of_build (hsome : ts ≠ [] ∨ base = [])
    (h : Always (base.foldl SetParts.concat { ops, elements := SetParts.addAll ts [] }).build (· == s)) :
    Gathers Term.setElements ts base s := by
  have helements : (base.foldl SetParts.concat { ops, elements := SetParts.addAll ts [] }).elements =
      SetParts.addAll (base.flatMap (SetParts.brought ops)) (SetParts.addAll ts []) :=
    SetParts.elements_foldl_concat base _
  have hadd {k : Term} (hk : k ∈ ts) :
      ∃ u ∈ SetParts.addAll (base.flatMap (SetParts.brought ops)) (SetParts.addAll ts []), u == k := by
    rw [SetParts.exists_mem_addAll, SetParts.exists_mem_addAll]
    exact .inr (.inl ⟨k, hk, BEq.rfl⟩)
  have hbuilt : Always (base.foldl SetParts.concat { ops, elements := SetParts.addAll ts [] }).build
      fun u => u.setElements = SetParts.addAll (base.flatMap (SetParts.brought ops)) (SetParts.addAll ts []) := by
    rw [← helements]
    refine SetParts.always_setElements (hsome.imp (fun hne hnil => ?_) fun hnil => by rw [hnil]; rfl)
    obtain ⟨k, hk⟩ := List.exists_mem_of_ne_nil ts hne
    obtain ⟨u, hu, -⟩ := hadd hk
    rw [← helements, hnil] at hu
    cases hu
  obtain ⟨u, hu, heq⟩ := h.exists_canReturn
  have hu := hbuilt.returns u hu
  have helements := Term.setElements_congr heq
  refine ⟨fun k hk => ?_, fun v hv => ?_⟩
  · obtain ⟨w, hw, hwk⟩ := hadd hk
    obtain ⟨v, hv, hwv⟩ := PairedLists.exists_mem helements (hu ▸ hw)
    exact ⟨v, hv, BEq.trans (BEq.symm hwv) hwk⟩
  · obtain ⟨w, hw, hwv⟩ := PairedLists.exists_mem helements.symm hv
    have hwv : w == v := BEq.symm hwv
    rw [hu] at hw
    rcases SetParts.exists_mem_addAll.mp ⟨w, hw, BEq.rfl⟩ with ⟨b, hb, hbw⟩ | hts
    · obtain ⟨c, hc, hb⟩ := List.mem_flatMap.mp hb
      refine .inr ⟨c, hc, b, ?_, BEq.trans hbw hwv⟩
      rw [SetParts.brought] at hb
      split at hb
      · exact hb
      · cases hb
    · obtain ⟨k, hk, hkw⟩ := (SetParts.exists_mem_addAll.mp hts).resolve_right (by simp)
      exact .inl ⟨k, hk, BEq.trans hkw hwv⟩

/-! ### Readings of collections -/

/-- A map is read as a map with the entries that its own are read as. -/
theorem Reads.hasEntries (h : Reads θ m m') (hn : m.node = .map ops es base) (hsome : es ≠ [] ∨ base = []) :
    ∃ (es' : List (Term × Term)) (base' : List Term),
      List.Forall₂ (fun e e' => Reads θ e.1 e'.1 ∧ Reads θ e.2 e'.2) es es' ∧
        List.Forall₂ (Reads θ) base base' ∧ HasEntries es' base' m' := by
  have hchildren : m.children = es.flatMap (fun e => [e.1, e.2]) ++ base := by rw [Term.children, hn]; rfl
  cases h with
  | ground hground heq =>
    have hread {c c' : Term} (hc : c ∈ es.flatMap (fun e => [e.1, e.2]) ++ base) (h : c == c') : Reads θ c c' :=
      .ground (Term.isGround_child hground (hchildren ▸ hc)) h
    have halike := Term.alike_of_beq heq
    rw [hn] at halike
    generalize hn' : m'.node = n at halike
    cases halike with
    | @map _ _ es' _ base' hes hbase =>
      refine ⟨es', base', PairedLists.imp_mem hes fun e he e' _ h => ⟨hread ?_ h.1, hread ?_ h.2⟩,
        PairedLists.imp_mem hbase fun b hb b' _ h => hread (List.mem_append_right _ hb) h, hasEntries_of_map hn'⟩
      · exact List.mem_append_left _ (List.mem_flatMap.mpr ⟨e, he, List.mem_cons_self⟩)
      · exact List.mem_append_left _ (List.mem_flatMap.mpr ⟨e, he, List.mem_cons_of_mem _ List.mem_cons_self⟩)
  | var hn' =>
    rw [hn] at hn'
    cases hn'
  | @node _ _ _ fs _ _ _ hc _ h =>
    rw [hchildren] at hc
    obtain ⟨cs, base', rfl, hcs, hbase⟩ := PairedLists.exists_append hc.flip
    obtain ⟨es', rfl, hes⟩ := PairedLists.exists_entries hcs.flip
    have hmade := h _ fs (.refl _) (.refl fs)
    rw [MapParts.rebuild_eq hn hes.length_eq.symm] at hmade
    refine ⟨es', base', hes, hbase.flip, hasEntries_of_build (hsome.imp (fun hne hnil => ?_) fun hnil => ?_) hmade⟩
    · subst hnil
      cases hes
      exact hne rfl
    · subst hnil
      cases hbase
      rfl

/-- A set is read as a set with the elements that its own are read as. -/
theorem Reads.gathersElements (h : Reads θ s s') (hn : s.node = .set ops ts base) (hsome : ts ≠ [] ∨ base = []) :
    ∃ ts' base' : List Term, List.Forall₂ (Reads θ) ts ts' ∧ List.Forall₂ (Reads θ) base base' ∧
      Gathers Term.setElements ts' base' s' := by
  have hchildren : s.children = ts ++ base := by rw [Term.children, hn]; rfl
  cases h with
  | ground hground heq =>
    have hread {c c' : Term} (hc : c ∈ ts ++ base) (h : c == c') : Reads θ c c' :=
      .ground (Term.isGround_child hground (hchildren ▸ hc)) h
    have halike := Term.alike_of_beq heq
    rw [hn] at halike
    generalize hn' : s'.node = n at halike
    cases halike with
    | set hts hbase =>
      exact ⟨_, _, PairedLists.imp_mem hts fun t ht _ _ h => hread (List.mem_append_left _ ht) h,
        PairedLists.imp_mem hbase fun b hb _ _ h => hread (List.mem_append_right _ hb) h, gathers_of_set hn'⟩
  | var hn' =>
    rw [hn] at hn'
    cases hn'
  | @node _ _ _ fs _ _ _ hc _ h =>
    rw [hchildren] at hc
    obtain ⟨ts', base', rfl, hts, hbase⟩ := PairedLists.exists_append hc.flip
    have hmade := h _ fs (.refl _) (.refl fs)
    rw [SetParts.rebuild_eq hn hts.length_eq] at hmade
    refine ⟨ts', base', hts.flip, hbase.flip, gathers_of_build (hsome.imp (fun hne hnil => ?_) fun hnil => ?_) hmade⟩
    · subst hnil
      cases hts
      exact hne rfl
    · subst hnil
      cases hbase
      rfl

/-! ### What is there and what is not -/

/-- None of the terms becomes equal to another one. -/
def Apart (θ : Substitution) (ks : List Term) (k : Term) : Prop :=
  ∀ t ∈ ks, ∀ u k', Reads θ t u → Reads θ k k' → u == k' → t == k

/-- Terms without variables do not become equal. -/
theorem apart_of_isGround (hks : ∀ t ∈ ks, t.isGround) (hk : k.isGround) : Apart θ ks k :=
  fun t ht _ _ hu hk' heq =>
    BEq.trans (hu.beq_of_isGround (hks t ht)) (BEq.trans heq (BEq.symm (hk'.beq_of_isGround hk)))

/-- The instance gathers what the members and the unknown parts are read as, if any member is known or there
are no unknown parts. -/
def Collects (θ : Substitution) (view : Term → List Term) (ks base : List Term) (t : Term) : Prop :=
  ks ≠ [] ∨ base = [] → ∃ ks' base' : List Term, List.Forall₂ (Reads θ) ks ks' ∧
    List.Forall₂ (Reads θ) base base' ∧ Gathers view ks' base' t

theorem Reads.collectsElements (h : Reads θ s s') (hn : s.node = .set ops ts base) :
    Collects θ Term.setElements ts base s' :=
  h.gathersElements hn

theorem Reads.collectsKeys (h : Reads θ m m') (hn : m.node = .map ops es base) :
    Collects θ Term.mapKeys (es.map (·.1)) base m' := by
  intro hsome
  obtain ⟨es', base', hes, hbase, hhas⟩ := h.hasEntries hn (hsome.imp_left fun hne hnil => hne (by rw [hnil]; rfl))
  refine ⟨es'.map (·.1), base', ?_, hbase, hhas.gathers⟩
  exact List.forall₂_map_left_iff.mpr (List.forall₂_map_right_iff.mpr (hes.imp fun _ _ h => h.1))

/-- What is a member and has no variables is a member of the instance. -/
theorem Collects.contains (h : Collects θ view ks base m) (hk : Reads θ k k') (hground : k.isGround)
    (hmem : ks.contains k) : (view m).contains k' := by
  rw [← List.any_beq', List.any_eq_true] at hmem ⊢
  obtain ⟨t, ht, htk⟩ := hmem
  obtain ⟨ks', base', hks, -, hgathers⟩ := h (.inl (List.ne_nil_of_mem ht))
  obtain ⟨t', ht', hread⟩ := PairedLists.exists_mem hks ht
  obtain ⟨u, hu, hut⟩ := hgathers.mem t' ht'
  have htt' : t' == t := BEq.symm (hread.beq_of_isGround ((Term.isGround_congr htk).trans hground))
  exact ⟨u, hu, BEq.trans hut (BEq.trans htt' (BEq.trans htk (hk.beq_of_isGround hground)))⟩

/-- What is no member of a known collection is no member of the instance, if no member becomes equal to it. -/
theorem Collects.contains_eq_false (h : Collects θ view ks [] m) (hk : Reads θ k k') (hapart : Apart θ ks k)
    (hno : ks.contains k = false) : (view m).contains k' = false := by
  obtain ⟨ks', base', hks, hbase, hgathers⟩ := h (.inr rfl)
  cases hbase
  rw [← List.any_beq', List.any_eq_false] at hno ⊢
  intro u hu heq
  rcases hgathers.origin u hu with ⟨t', ht', htu⟩ | ⟨b, hb, -⟩
  · obtain ⟨t, ht, hread⟩ := PairedLists.exists_mem hks.flip ht'
    exact hno t ht (hapart t ht t' k' hread hk (BEq.trans htu heq))
  · cases hb

/-- The key is told from the other keys of the map: those differ, none becomes equal to it that is not so
before, and no unknown part brings it. -/
structure KeyApart (θ : Substitution) (m k : Term) : Prop where
  differ : MapParts.KeysDiffer m.mapEntries
  apart : Apart θ m.mapKeys k
  parts : ∀ {ops es base}, m.node = .map ops es base → ∀ b ∈ base, ∀ b' k', Reads θ b b' → Reads θ k k' →
    SortedList.get? k' b'.mapEntries = none

/-- The value of a known key is read as the value that the instance has for it. -/
theorem Reads.exists_value {v : Term} (h : Reads θ m m') (hn : m.node = .map ops es base) (hk : Reads θ k k')
    (hground : k.isGround) (hkey : KeyApart θ m k) (hv : SortedList.get? k es = some v) :
    ∃ w, SortedList.get? k' m'.mapEntries = some w ∧ Reads θ v w := by
  obtain ⟨hdiffer, hapart, hparts⟩ := hkey
  have hentries : m.mapEntries = es := by rw [Term.mapEntries, hn]
  rw [Term.mapKeys, hentries] at hapart
  rw [hentries] at hdiffer
  have hkk' : k == k' := hk.beq_of_isGround hground
  obtain ⟨e, he, hek, rfl⟩ := SortedList.of_get?_eq_some hv
  obtain ⟨es', base', hes, hbase, hhas⟩ := h.hasEntries hn (.inl (List.ne_nil_of_mem he))
  obtain ⟨e', he', hread, -⟩ := PairedLists.exists_mem hes he
  have he'k' : e'.1 == k' :=
    BEq.trans (BEq.symm (hread.beq_of_isGround ((Term.isGround_congr hek).trans hground))) (BEq.trans hek hkk')
  obtain ⟨w, hw⟩ := Option.isSome_iff_exists.mp (SortedList.get?_congr he'k' m'.mapEntries ▸ hhas.mem e' he')
  refine ⟨w, hw, ?_⟩
  rcases hhas.origin k' w hw with ⟨f', hf', hf'k', hf'w⟩ | ⟨b', hb', hsome⟩
  · obtain ⟨f, hf, hkey, hvalue⟩ := PairedLists.exists_mem hes.flip hf'
    have hfk : f.1 == k := hapart f.1 (List.mem_map_of_mem hf) f'.1 k' hkey hk hf'k'
    obtain rfl : f = e := SortedList.eq_of_pairwise (R := fun a b : Term × Term => a.1 == b.1)
      (hdiffer.imp fun hne => ⟨fun h => hne (Term.cmp_eq_iff.mpr h),
        fun h => hne (Term.cmp_eq_iff.mpr (BEq.symm h))⟩) hf he (BEq.trans hfk (BEq.symm hek))
    exact hvalue.congr hf'w
  · obtain ⟨b, hb, hread'⟩ := PairedLists.exists_mem hbase.flip hb'
    rw [hparts hn b hb b' k' hread' hk] at hsome
    cases hsome

/-! ### Items of lists -/

/-- The list stays one of as many items, if it has no unknown parts: no item becomes something that a list
of a user operator takes up. -/
def KeepsItems (θ : Substitution) (l : Term) : Prop :=
  ∀ ops items right, l.node = .list ops items [] right → right = [] ∧
    (ops.isOperator → 1 < items.length ∧ ∀ t ∈ items, ∀ u, Reads θ t u → u.isGround ∧ ListParts.isPart ops u)

/-- A list of known items is read as the list of what these are read as. -/
theorem Reads.listItems {right : List Term} (h : Reads θ s s') (hn : s.node = .list ops ts [] right)
    (hkeeps : KeepsItems θ s) : List.Forall₂ (Reads θ) ts s'.listItems := by
  obtain ⟨rfl, hitems⟩ := hkeeps ops ts right hn
  have hchildren : s.children = ts ++ ([] ++ []) := by rw [Term.children, hn]; rfl
  cases h with
  | ground hground heq =>
    have hequal := Term.listItems_congr heq
    have hts : s.listItems = ts := by rw [Term.listItems, hn]
    rw [hts] at hequal
    refine PairedLists.imp_mem hequal fun t ht _ _ h => .ground (Term.isGround_child hground ?_) h
    rw [hchildren]
    exact List.mem_append_left _ ht
  | var hn' =>
    rw [hn] at hn'
    cases hn'
  | @node _ _ ls fs _ _ _ hc _ h =>
    rw [hchildren, List.append_nil, List.append_nil] at hc
    have hmade := h _ fs (.refl _) (.refl fs)
    have hsplit : ls = ls ++ ([] ++ []) := by simp
    have hknown (hop : ops.isOperator) : ∀ t ∈ ls, t.isGround ∧ ListParts.isPart ops t := by
      intro u hu
      obtain ⟨t, ht, hread⟩ := PairedLists.exists_mem hc.flip hu
      exact (hitems hop).2 t ht u hread
    rw [hsplit, ListParts.rebuild_eq hn hc.length_eq.symm rfl, ListParts.foldlM_addPart hknown rfl, pure_bind,
      List.foldlM_nil, pure_bind, List.foldlM_nil, pure_bind, ListParts.foldl_addItem rfl, List.nil_append,
      ListParts.build_eq fun hop => hc.length_eq ▸ (hitems hop).1] at hmade
    obtain ⟨u, hu, heq⟩ := hmade.exists_canReturn
    have hequal := Term.listItems_congr heq
    have hls : u.listItems = ls := by rw [Term.listItems, Term.returns_new _ u hu]
    rw [hls] at hequal
    exact PairedLists.comp (fun _ _ _ h h' => h.congr h') hc hequal

end Matching

end RuleCompiler
