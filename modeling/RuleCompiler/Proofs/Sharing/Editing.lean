import RuleCompiler.Proofs.Sharing.NormalForm
import RuleCompiler.Proofs.Term.FlagCache

/-! # Editing in place

An edit changes what a map, a set or a group of cells is made of, and leaves the order of the builders as
it is. So the node has the contents that its builder would make from what it is made of by then, in
whatever order that is put together, and its flags are those of what is built. Builders do one more thing:
where nothing is left but a single unknown part, they give that part and no collection of it. Editing
does not. -/

namespace RuleCompiler

open Build (Always)
open Term (IsNode IsHeap)

variable {t u : Term} {m n n' : Node Term} {edits : List Edit} {cache : FlagCache} {k : Nat}

/-! ### Contents -/

/-- The value of a key set among entries that stand in any order. -/
def setEntry (key value : Term) (es : List (Term × Term)) : List (Term × Term) :=
  if es.any (·.1 == key) then es.map fun e => if e.1 == key then (e.1, value) else e else (key, value) :: es

/-- An element that is there once more or new, among elements that stand in any order. -/
def addElement (x : Term) (xs : List Term) : List Term := if xs.any (· == x) then xs else x :: xs

namespace Edit

/-- What a collection is made of after an edit; entries and elements stand in any order. -/
def onContents (e : Edit) (n : Node Term) : Node Term :=
  match e, n with
  | put key value, .map ops es base => .map ops (setEntry key value es) base
  | remove key, .map ops es base => .map ops (es.filter fun e => !(e.1 == key)) base
  | add x, .set ops xs base => .set ops (addElement x xs) base
  | remove x, .set ops xs base => .set ops (xs.filter fun y => !(y == x)) base
  | setContent l content, .cells cs frames => .cells (setOnlyContent l content cs).1 frames
  | _, n => n

/-- What a collection is made of after all edits. -/
def contentsAfter (edits : List Edit) (n : Node Term) : Node Term := edits.foldl (fun n e => e.onContents n) n

end Edit

namespace Node

/-- Whether the node is a map, a set or a group of cells that builders leave as it is. -/
def isNormalCollection : Node Term → Bool
  | .map ops entries base => MapParts.isNormal { ops, entries, base }
  | .set ops elements base => SetParts.isNormal { ops, elements, base }
  | .cells cs frames => CellParts.isSettled ⟨cs, frames⟩
  | _ => false

/-- The collection that its builder makes of the contents, put in one after the other. -/
def assemble : Node Term → Build Term
  | .map ops es base => (base.foldl MapParts.concat (es.foldl (fun p e => p.put e.1 e.2) { ops })).build
  | .set ops xs base => (base.foldl SetParts.concat (xs.foldl SetParts.add { ops })).build
  | .cells cs frames => do Term.cellsFrom cs (← frames.mapM Term.var)
  | n => Term.new n

/-- The only thing that the map or set is made of, if that is an unknown part. -/
def lonePart? : Node Term → Option Term
  | .map _ [] [u] | .set _ [] [u] => some u
  | _ => none

/-- `n` has the entries or elements of `m`, in any order. -/
inductive Rearranges : Node Term → Node Term → Prop where
  | map {ops : CollectionOps} {es es' : List (Term × Term)} {base : List Term} (h : es.Perm es') :
      Rearranges (.map ops es base) (.map ops es' base)
  | set {ops : CollectionOps} {xs xs' base : List Term} (h : xs.Perm xs') :
      Rearranges (.set ops xs base) (.set ops xs' base)
  | cells {cs : List Cell} {frames : List Var} : Rearranges (.cells cs frames) (.cells cs frames)

/-- The contents of a collection in the order of the builders. -/
inductive IsSorted : Node Term → Prop where
  | map {ops : CollectionOps} {es : List (Term × Term)} {base : List Term}
      (hentries : es.Pairwise fun a b => a.1.cmp b.1 = .lt) (hbase : base.Pairwise fun a b => (a.cmp b).isLE)
      (hparts : ∀ b ∈ base, MapParts.isPart ops b) : IsSorted (.map ops es base)
  | set {ops : CollectionOps} {xs base : List Term}
      (helements : xs.Pairwise fun a b => a.cmp b = .lt) (hbase : base.Pairwise fun a b => (a.cmp b).isLE)
      (hparts : ∀ b ∈ base, SetParts.isPart ops b) : IsSorted (.set ops xs base)
  | cells {cs : List Cell} {frames : List Var}
      (hcells : cs.Pairwise fun c d => (CellParts.compareCells c d).isLE)
      (hframes : frames.Pairwise fun v w => CellParts.compareFrames w v ≠ .lt)
      (hmany : (cs.isEmpty && frames.length == 1) = false) : IsSorted (.cells cs frames)

theorem lonePart?_map {ops : CollectionOps} {es : List (Term × Term)} {base : List Term} :
    (map ops es base).lonePart? = none ↔ (es.isEmpty && base.length == 1) = false := by
  unfold lonePart?
  split
  · rename_i h
    cases h
    simp
  · rename_i h
    cases h
  · rename_i hmap _
    cases es with
    | cons => simp
    | nil => match base with
      | [] | _ :: _ :: _ => simp
      | [u] => exact absurd rfl (hmap ops u)

theorem lonePart?_set {ops : CollectionOps} {xs base : List Term} :
    (set ops xs base).lonePart? = none ↔ (xs.isEmpty && base.length == 1) = false := by
  unfold lonePart?
  split
  · rename_i h
    cases h
  · rename_i h
    cases h
    simp
  · rename_i _ hset
    cases xs with
    | cons => simp
    | nil => match base with
      | [] | _ :: _ :: _ => simp
      | [u] => exact absurd rfl (hset ops u)

theorem IsSorted.rearranges (h : n.IsSorted) : n.Rearranges n := by
  cases h with
  | map => exact .map (.refl _)
  | set => exact .set (.refl _)
  | cells => exact .cells

theorem IsSorted.isCanonical (h : n.IsSorted) : n.isCanonical = false := by
  cases h <;> rfl

/-- A collection is as builders leave it if it is sorted and not just one unknown part. -/
theorem isNormalCollection_iff : n.isNormalCollection ↔ IsSorted n ∧ n.lonePart? = none := by
  constructor
  · intro h
    cases n with
    | map ops es base =>
      simp only [isNormalCollection, MapParts.isNormal, Bool.and_eq_true, decide_eq_true_eq,
        Bool.not_eq_true', List.all_eq_true] at h
      obtain ⟨⟨⟨hentries, hbase⟩, hparts⟩, hmany⟩ := h
      exact ⟨.map hentries hbase hparts, lonePart?_map.mpr hmany⟩
    | set ops xs base =>
      simp only [isNormalCollection, SetParts.isNormal, Bool.and_eq_true, decide_eq_true_eq,
        Bool.not_eq_true', List.all_eq_true] at h
      obtain ⟨⟨⟨helements, hbase⟩, hparts⟩, hmany⟩ := h
      exact ⟨.set helements hbase hparts, lonePart?_set.mpr hmany⟩
    | cells cs frames =>
      simp only [isNormalCollection, CellParts.isSettled, CellParts.isNormal, Bool.and_eq_true,
        decide_eq_true_eq, Bool.not_eq_true'] at h
      obtain ⟨⟨hcells, hframes⟩, hmany⟩ := h
      exact ⟨.cells hcells hframes hmany, rfl⟩
    | _ => cases h
  · rintro ⟨hsorted, hlone⟩
    cases hsorted with
    | map hentries hbase hparts =>
      simp only [isNormalCollection, MapParts.isNormal, Bool.and_eq_true, decide_eq_true_eq,
        Bool.not_eq_true', List.all_eq_true]
      exact ⟨⟨⟨hentries, hbase⟩, hparts⟩, lonePart?_map.mp hlone⟩
    | set helements hbase hparts =>
      simp only [isNormalCollection, SetParts.isNormal, Bool.and_eq_true, decide_eq_true_eq,
        Bool.not_eq_true', List.all_eq_true]
      exact ⟨⟨⟨helements, hbase⟩, hparts⟩, lonePart?_set.mp hlone⟩
    | cells hcells hframes hmany =>
      simp only [isNormalCollection, CellParts.isSettled, CellParts.isNormal, Bool.and_eq_true,
        decide_eq_true_eq, Bool.not_eq_true']
      exact ⟨⟨hcells, hframes⟩, hmany⟩

end Node

/-! ### One edit -/

theorem setEntry_perm {key value : Term} {es es' : List (Term × Term)} (h : es.Perm es') :
    (setEntry key value es).Perm (setEntry key value es') := by
  unfold setEntry
  rw [h.any_eq]
  split
  · exact h.map _
  · exact h.cons (key, value)

/-- Putting an entry into sorted entries sets the value of its key. -/
theorem put_perm_setEntry {key value : Term} {es : List (Term × Term)}
    (h : es.Pairwise fun a b => a.1.cmp b.1 = .lt) :
    (SortedList.put Term.cmp key value es).Perm (setEntry key value es) := by
  have hkey (e : Term × Term) : key.cmp e.1 = .eq ↔ e.1 == key := by rw [Term.cmp_eq_iff, BEq.comm]
  unfold setEntry
  split
  · rename_i hany
    obtain ⟨e, he, heq⟩ := List.any_eq_true.mp hany
    rw [SortedList.put_eq_map h ⟨e, he, (hkey e).mpr heq⟩]
    simp only [hkey]
    rfl
  · rename_i hany
    rw [Bool.not_eq_true, List.any_eq_false] at hany
    exact SortedList.perm_put fun e he heq => hany e he ((hkey e).mp heq)

theorem addElement_perm {x : Term} {xs xs' : List Term} (h : xs.Perm xs') :
    (addElement x xs).Perm (addElement x xs') := by
  unfold addElement
  rw [h.any_eq]
  split
  · exact h
  · exact h.cons x

theorem addNew_perm_addElement {x : Term} {xs : List Term} (h : xs.Pairwise fun a b => a.cmp b = .lt) :
    (SortedList.addNew Term.cmp x xs).Perm (addElement x xs) := by
  have heq (y : Term) : x.cmp y = .eq ↔ y == x := by rw [Term.cmp_eq_iff, BEq.comm]
  unfold addElement
  split
  · rename_i hany
    obtain ⟨y, hy, hyx⟩ := List.any_eq_true.mp hany
    rw [SortedList.addNew_eq_self h ⟨y, hy, (heq y).mpr hyx⟩]
  · rename_i hany
    rw [Bool.not_eq_true, List.any_eq_false] at hany
    exact SortedList.perm_addNew fun y hy hxy => hany y hy ((heq y).mp hxy)

theorem CellParts.compareCells_of_label_ne {c d : Cell} (h : c.label ≠ d.label) :
    compareCells c d = compare c.label d.label := by
  unfold compareCells
  cases hc : compare c.label d.label with
  | eq => exact absurd (Std.LawfulEqCmp.eq_of_compare hc) h
  | _ => rfl

/-- The content of a cell without instances beside it does not matter for its place. -/
theorem sorted_setOnlyContent {l : String} {content : Term} {cs : List Cell}
    (h : cs.Pairwise fun c d => (CellParts.compareCells c d).isLE) :
    (Edit.setOnlyContent l content cs).1.Pairwise fun c d => (CellParts.compareCells c d).isLE := by
  unfold Edit.setOnlyContent
  split
  · rename_i hone
    have honly : cs.Pairwise fun c d => c.label == l → d.label == l → False := by
      obtain ⟨c, hc⟩ := List.length_eq_one_iff.mp hone
      exact List.pairwise_filter.mp (hc ▸ List.pairwise_singleton _ c)
    refine List.pairwise_map.mpr ((h.and honly).imp fun {c d} ⟨hle, hnot⟩ => ?_)
    by_cases hlabel : c.label = d.label
    · have hc : ¬c.label == l := fun hc => hnot hc (hlabel ▸ hc)
      rw [if_neg hc, if_neg (hlabel ▸ hc)]
      exact hle
    · rw [CellParts.compareCells_of_label_ne hlabel] at hle
      rw [CellParts.compareCells_of_label_ne] <;> split <;> split <;> assumption
  · exact h

theorem isEmpty_setOnlyContent (l : String) (content : Term) (cs : List Cell) :
    (Edit.setOnlyContent l content cs).1.isEmpty = cs.isEmpty := by
  unfold Edit.setOnlyContent
  split
  · exact List.isEmpty_map
  · rfl

theorem Edit.run_setContent (l : String) (content : Term) (cs : List Cell) (frames : List Var) :
    ((setContent l content).run (.cells cs frames)).1 = .cells (setOnlyContent l content cs).1 frames := rfl

/-- An edit leaves a sorted collection sorted, and does what it does to contents in any order. -/
theorem Edit.sorts_run (hm : m.IsSorted) (h : m.Rearranges n) (e : Edit) :
    (e.run m).1.IsSorted ∧ (e.run m).1.Rearranges (e.onContents n) := by
  cases h with
  | map h =>
    cases hm with
    | map hentries hbase hparts =>
    cases e with
    | put key value =>
      exact ⟨.map (SortedList.pairwise_put key value hentries) hbase hparts,
        .map ((put_perm_setEntry hentries).trans (setEntry_perm h))⟩
    | remove key => exact ⟨.map (hentries.filter _) hbase hparts, .map (h.filter _)⟩
    | _ => exact ⟨.map hentries hbase hparts, .map h⟩
  | set h =>
    cases hm with
    | set helements hbase hparts =>
    cases e with
    | add x =>
      exact ⟨.set (SortedList.pairwise_addNew x helements) hbase hparts,
        .set ((addNew_perm_addElement helements).trans (addElement_perm h))⟩
    | remove x => exact ⟨.set (helements.filter _) hbase hparts, .set (h.filter _)⟩
    | _ => exact ⟨.set helements hbase hparts, .set h⟩
  | @cells cs frames =>
    cases hm with
    | cells hcells hframes hmany =>
    cases e with
    | setContent l content =>
      rw [run_setContent]
      exact ⟨.cells (sorted_setOnlyContent hcells) hframes (by rw [isEmpty_setOnlyContent, hmany]), .cells⟩
    | _ => exact ⟨.cells hcells hframes hmany, .cells⟩

/-- So do any edits, one after the other. -/
theorem Edit.sorts_runAll (es : List Edit) : ∀ {m n : Node Term}, m.IsSorted → m.Rearranges n →
    (runAll es m).1.IsSorted ∧ (runAll es m).1.Rearranges (contentsAfter es n) := by
  induction es with
  | nil => exact fun hm h => ⟨hm, h⟩
  | cons e es ih =>
    intro m n hm h
    obtain ⟨hrun, hcontents⟩ := sorts_run hm h e
    exact ih hrun hcontents

theorem mem_entries {es : List (Term × Term)} {base : List Term} {c : Term} :
    c ∈ (es.flatMap fun e => [e.1, e.2]) ++ base ↔ (∃ e ∈ es, c = e.1 ∨ c = e.2) ∨ c ∈ base := by
  rw [List.mem_append, List.mem_flatMap]
  simp

/-- What a collection is made of after an edit was there before or is written in the edit. -/
theorem Edit.children_run (e : Edit) (n : Node Term) {c : Term} (hc : c ∈ (e.run n).1.children) :
    c ∈ n.children ∨ c ∈ e.parts := by
  cases n with
  | map ops es base =>
    cases e with
    | put key value =>
      rcases mem_entries.mp hc with ⟨e, he, hce⟩ | hc
      · obtain ⟨hkey, hvalue⟩ := SortedList.mem_of_mem_put he
        rcases hce with rfl | rfl
        · rcases hkey with hkey | ⟨f, hf, hkey⟩
          · exact .inr (hkey ▸ List.mem_cons_self)
          · exact .inl (mem_entries.mpr (.inl ⟨f, hf, .inl hkey.symm⟩))
        · rcases hvalue with hvalue | ⟨f, hf, hvalue⟩
          · exact .inr (hvalue ▸ List.mem_cons_of_mem _ List.mem_cons_self)
          · exact .inl (mem_entries.mpr (.inl ⟨f, hf, .inr hvalue.symm⟩))
      · exact .inl (mem_entries.mpr (.inr hc))
    | remove key =>
      rcases mem_entries.mp hc with ⟨e, he, hce⟩ | hc
      · exact .inl (mem_entries.mpr (.inl ⟨e, SortedList.mem_of_mem_erase he, hce⟩))
      · exact .inl (mem_entries.mpr (.inr hc))
    | _ => exact .inl hc
  | set ops xs base =>
    cases e with
    | add x =>
      rcases List.mem_append.mp hc with hc | hc
      · rcases SortedList.mem_of_mem_addNew hc with rfl | hc
        · exact .inr List.mem_cons_self
        · exact .inl (List.mem_append_left base hc)
      · exact .inl (List.mem_append_right xs hc)
    | remove x =>
      rcases List.mem_append.mp hc with hc | hc
      · exact .inl (List.mem_append_left base (List.mem_of_mem_filter hc))
      · exact .inl (List.mem_append_right xs hc)
    | _ => exact .inl hc
  | cells cs frames =>
    cases e with
    | setContent l content =>
      rw [run_setContent] at hc
      obtain ⟨d, hd, rfl⟩ := List.mem_map.mp hc
      unfold setOnlyContent at hd
      split at hd
      · obtain ⟨d', hd', rfl⟩ := List.mem_map.mp hd
        split
        · exact .inr List.mem_cons_self
        · exact .inl (List.mem_map_of_mem hd')
      · exact .inl (List.mem_map_of_mem hd)
    | _ => exact .inl hc
  | _ => cases e <;> exact .inl hc

theorem Edit.children_runAll (es : List Edit) : ∀ {n : Node Term} {c : Term}, c ∈ (runAll es n).1.children →
    c ∈ n.children ∨ c ∈ es.flatMap parts := by
  induction es with
  | nil => exact fun hc => .inl hc
  | cons e es ih =>
    intro n c hc
    rw [List.flatMap_cons, List.mem_append]
    rcases ih hc with hc | hc
    · exact (children_run e n hc).imp_right .inl
    · exact .inr (.inr hc)

theorem Edit.isCanonical_run (e : Edit) (n : Node Term) : (e.run n).1.isCanonical = n.isCanonical := by
  cases n <;> cases e <;> rfl

theorem Edit.isCanonical_runAll (es : List Edit) : ∀ n : Node Term, (runAll es n).1.isCanonical = n.isCanonical := by
  induction es with
  | nil => exact fun _ => rfl
  | cons e es ih => exact fun n => (ih (e.run n).1).trans (isCanonical_run e n)

/-! ### Builders -/

theorem Term.always_new_frozen (n : Node Term) :
    Always (Term.new n) fun b => b.node = n ∧ b.isEditable = false := by
  unfold Term.new
  split
  · exact .pure ⟨rfl, rfl⟩
  · exact fun k => ⟨_, k + 1, rfl, rfl, rfl⟩

theorem MapParts.entries_eq {es es' : List (Term × Term)} (h : es.Pairwise fun a b => a.1.cmp b.1 = .lt)
    (hperm : es.Perm es') : putAll es' [] = es := by
  have hdiffer : KeysDiffer es' :=
    (hperm.pairwise_iff fun hne heq => hne (Std.OrientedCmp.eq_symm heq)).mp (KeysDiffer.of_sorted h)
  have hput : (putAll es' []).Perm es := (perm_putAll (l := []) hdiffer).trans hperm.symm
  exact hput.eq_of_pairwise (fun _ _ _ _ h h' => (Term.not_lt_lt h h').elim) (sorted_putAll .nil) h

theorem SetParts.elements_eq {xs xs' : List Term} (h : xs.Pairwise fun a b => a.cmp b = .lt)
    (hperm : xs.Perm xs') : addAll xs' [] = xs := by
  have hdiffer : Differ xs' :=
    (hperm.pairwise_iff fun hne heq => hne (Std.OrientedCmp.eq_symm heq)).mp (Differ.of_sorted h)
  have hadd : (addAll xs' []).Perm xs := (perm_addAll (l := []) hdiffer).trans hperm.symm
  exact hadd.eq_of_pairwise (fun _ _ _ _ h h' => (Term.not_lt_lt h h').elim) (sorted_addAll .nil) h

namespace Node

theorem assemble_map {ops : CollectionOps} {es es' : List (Term × Term)} {base : List Term}
    (hentries : es.Pairwise fun a b => a.1.cmp b.1 = .lt) (hparts : ∀ b ∈ base, MapParts.isPart ops b)
    (hperm : es.Perm es') : (map ops es' base).assemble = MapParts.build { ops, entries := es, base } := by
  rw [assemble, MapParts.foldl_put, MapParts.entries_eq hentries hperm,
    MapParts.foldl_concat_parts (p := ⟨ops, es, []⟩) hparts, List.nil_append]

theorem assemble_set {ops : CollectionOps} {xs xs' base : List Term}
    (helements : xs.Pairwise fun a b => a.cmp b = .lt) (hparts : ∀ b ∈ base, SetParts.isPart ops b)
    (hperm : xs.Perm xs') : (set ops xs' base).assemble = SetParts.build { ops, elements := xs, base } := by
  rw [assemble, SetParts.foldl_add, SetParts.elements_eq helements hperm,
    SetParts.foldl_concat_parts (p := ⟨ops, xs, []⟩) hparts, List.nil_append]

/-- The builder gives the sorted collection, unless that is a single unknown part. -/
theorem always_assemble (hm : m.IsSorted) (h : m.Rearranges n) (hlone : m.lonePart? = none) :
    Always n.assemble fun b => b.node = m ∧ b.isEditable = false := by
  cases h with
  | @map ops es es' base h =>
    cases hm with
    | map hentries hbase hparts =>
    rw [assemble_map hentries hparts h, MapParts.build_of_many (lonePart?_map.mp hlone),
      SortedList.sort_of_sorted hbase]
    exact Term.always_new_frozen _
  | @set ops xs xs' base h =>
    cases hm with
    | set helements hbase hparts =>
    rw [assemble_set helements hparts h, SetParts.build_of_many (lonePart?_set.mp hlone),
      SortedList.sort_of_sorted hbase]
    exact Term.always_new_frozen _
  | @cells cs frames =>
    cases hm with
    | cells hcells hframes hmany =>
    refine Always.bind (Always.mapM fun v _ => Term.always_new (.var v)) fun fs hfs => ?_
    rw [Term.cellsFrom, CellParts.foldlM_concat_vars hfs, pure_bind, List.nil_append]
    exact CellParts.build_of_sorted hcells hframes hmany ▸ Term.always_new_frozen _

theorem eq_of_lonePart (h : n.lonePart? = some u) : ∃ ops, n = .map ops [] [u] ∨ n = .set ops [] [u] := by
  unfold lonePart? at h
  split at h
  · cases h
    exact ⟨_, .inl rfl⟩
  · cases h
    exact ⟨_, .inr rfl⟩
  · cases h

theorem Rearranges.symm (h : m.Rearranges n) : n.Rearranges m := by
  cases h with
  | map h => exact .map h.symm
  | set h => exact .set h.symm
  | cells => exact .cells

theorem Rearranges.trans (h : m.Rearranges n) (h' : n.Rearranges n') : m.Rearranges n' := by
  cases h with
  | map h =>
    cases h' with
    | map h' => exact .map (h.trans h')
  | set h =>
    cases h' with
    | set h' => exact .set (h.trans h')
  | cells => exact h'

theorem Rearranges.eq_of_lonePart (h : m.Rearranges n) (hn : n.lonePart? = some u) : m = n := by
  obtain ⟨ops, rfl | rfl⟩ := Node.eq_of_lonePart hn
  · cases h with
    | map h => rw [h.eq_nil]
  · cases h with
    | set h => rw [h.eq_nil]

theorem Rearranges.lonePart?_eq (h : m.Rearranges n) : m.lonePart? = n.lonePart? := by
  cases hn : n.lonePart? with
  | some u => rw [h.eq_of_lonePart hn, hn]
  | none =>
    cases hm : m.lonePart? with
    | none => rfl
    | some u =>
      rw [h.symm.eq_of_lonePart hm, hm] at hn
      cases hn

/-- Then it gives that part, which is another term than the collection. -/
theorem assemble_of_lonePart (hm : m.IsSorted) (h : m.Rearranges n) (hlone : m.lonePart? = some u) :
    n.assemble = pure u ∧ (t.node = m → (u == t) = false) := by
  obtain ⟨ops, rfl | rfl⟩ := eq_of_lonePart hlone
  · cases h with
    | map h =>
    cases hm with
    | map hentries hbase hparts =>
    refine ⟨assemble_map hentries hparts h, fun ht => ?_⟩
    by_contra heq
    have hpart := hparts u List.mem_cons_self
    rw [MapParts.isPart_congr (by simpa using heq), MapParts.isPart, Term.isMapOf, ht] at hpart
    simp at hpart
  · cases h with
    | set h =>
    cases hm with
    | set helements hbase hparts =>
    refine ⟨assemble_set helements hparts h, fun ht => ?_⟩
    by_contra heq
    have hpart := hparts u List.mem_cons_self
    rw [SetParts.isPart_congr (by simpa using heq), SetParts.isPart, Term.isSetOf, ht] at hpart
    simp at hpart

end Node

/-! ### Calls -/

/-- A call that edits a node in place, while the terms `others` are held elsewhere. -/
structure EditCall where
  others : List Term
  edits : List Edit

namespace EditCall

/-- Whether the node is edited: it is editable, and nothing else holds it. -/
def isAccepted (c : EditCall) (t : Term) : Bool :=
  t.isEditable && !(c.others ++ c.edits.flatMap Edit.parts).any (·.holds t.mark.id)

/-- The term and the flags after the calls. -/
def runAll (cache : FlagCache) (t : Term) (calls : List EditCall) : Term × FlagCache :=
  calls.foldl (fun s c => (s.1.editInPlace s.2 c.others c.edits).2) (t, cache)

/-- The edits that are done: those of the calls that are accepted. -/
def editsDone (t : Term) (calls : List EditCall) : List Edit :=
  (calls.filter (·.isAccepted t)).flatMap (·.edits)

theorem editInPlace_of_accepted {c : EditCall} (h : c.isAccepted t) :
    t.editInPlace cache c.others c.edits = (some (Edit.runAll c.edits t.node).2,
      { t with node := (Edit.runAll c.edits t.node).1 },
      cache.set t.mark.id { (Edit.runAll c.edits t.node).1.flagsFrom cache.get with isEditable := true }) := by
  unfold isAccepted at h
  rw [Term.editInPlace, Term.edit?, if_pos h]

theorem editInPlace_of_refused {c : EditCall} (h : c.isAccepted t = false) :
    t.editInPlace cache c.others c.edits = (none, t, cache) := by
  unfold isAccepted at h
  rw [Term.editInPlace, Term.edit?, if_neg (by rw [h]; exact Bool.false_ne_true)]

theorem isAccepted_congr (h : t.mark = u.mark) (c : EditCall) : c.isAccepted t = c.isAccepted u := by
  rw [isAccepted, isAccepted, Term.isEditable, Term.isEditable, h]

/-- What holds between the calls: the node has its contents in the order of the builders, and the flags
that are kept are exact, those of the terms `us` too. -/
structure Keeps (k : Nat) (us : List Term) (cache : FlagCache) (t : Term) (contents : Node Term) : Prop where
  isEditable : t.isEditable
  isSorted : t.node.IsSorted
  rearranges : t.node.Rearranges contents
  isHeap : IsHeap k (t :: us)
  isExact : cache.IsExact (t :: us)

variable {us : List Term}

/-- A call that is accepted does its edits. -/
theorem Keeps.edit (h : Keeps k us cache t n) (hfree : ∀ u ∈ us, u.holds t.mark.id = false)
    (hparts : ∀ p ∈ edits.flatMap Edit.parts, p ∈ us) :
    Keeps k us (cache.set t.mark.id { (Edit.runAll edits t.node).1.flagsFrom cache.get with isEditable := true })
      { t with node := (Edit.runAll edits t.node).1 } (Edit.contentsAfter edits n) := by
  obtain ⟨hsorted, hrearranges⟩ := Edit.sorts_runAll edits h.isSorted h.rearranges
  have hreplaces : Term.Replaces us t (Edit.runAll edits t.node).1 :=
    ⟨h.isSorted.isCanonical, hsorted.isCanonical,
      fun hc => (Edit.children_runAll edits hc).imp_right fun hc => Term.isNode_of_mem (hparts _ hc),
      Term.id_ne_of_not_holds hfree⟩
  have hexact := h.isExact.replace h.isHeap hreplaces
  rw [h.isEditable] at hexact
  exact ⟨h.isEditable, hsorted, hrearranges, hreplaces.isHeap h.isHeap, hexact⟩

theorem Keeps.runAll (hfree : ∀ u ∈ us, u.holds t.mark.id = false) (calls : List EditCall) :
    ∀ {v : Term} {cache : FlagCache} {n : Node Term}, v.mark = t.mark →
      (∀ p ∈ (editsDone t calls).flatMap Edit.parts, p ∈ us) → Keeps k us cache v n →
        (runAll cache v calls).1.mark = t.mark ∧
          Keeps k us (runAll cache v calls).2 (runAll cache v calls).1
            (Edit.contentsAfter (editsDone t calls) n) := by
  induction calls with
  | nil => exact fun hv _ h => ⟨hv, h⟩
  | cons c calls ih =>
    intro v cache n hv hparts h
    rw [EditCall.runAll, List.foldl_cons, ← EditCall.runAll]
    rw [editsDone, List.filter_cons, ← isAccepted_congr hv] at hparts ⊢
    cases hc : c.isAccepted v with
    | true =>
      rw [hc, if_pos rfl, List.flatMap_cons, ← editsDone, List.flatMap_append] at hparts
      rw [if_pos rfl, List.flatMap_cons, ← editsDone, editInPlace_of_accepted hc, Edit.contentsAfter,
        List.foldl_append]
      refine ih hv (fun p hp => hparts p (List.mem_append_right _ hp)) ?_
      exact h.edit (hv ▸ hfree) fun p hp => hparts p (List.mem_append_left _ hp)
    | false =>
      rw [hc, if_neg Bool.false_ne_true, ← editsDone] at hparts
      rw [if_neg Bool.false_ne_true, ← editsDone, editInPlace_of_refused hc]
      exact ih hv hparts h

/-- The term and the flags that are kept by then agree with what a builder makes of the contents. -/
structure Agrees (us : List Term) (cache : FlagCache) (t : Term) (contents : Node Term) : Prop where
  /-- The builder's term is equal, and has the same flags, but for being editable. -/
  rebuilt (hlone : contents.lonePart? = none) {n : Node Term} (hn : n.Rearranges contents) :
    Always n.assemble fun b => b == t ∧ b.isEditable = false ∧
      cache.get t = { b.exactFlags with isEditable := true }
  isNormal (hlone : contents.lonePart? = none) : t.node.isNormalCollection
  /-- Of a single unknown part the builder makes nothing, and the term is a collection of it. -/
  lone {u : Term} (hlone : contents.lonePart? = some u) :
    t.node = contents ∧ contents.assemble = pure u ∧ (u == t) = false
  isExact : cache.IsExact (t :: us)

theorem Keeps.agrees (h : Keeps k us cache t n) : Agrees us cache t n := by
  have hsame : t.node.lonePart? = n.lonePart? := h.rearranges.lonePart?_eq
  have hflags : cache.get t = t.exactFlags := h.isExact t (Term.isNode_of_mem List.mem_cons_self)
  refine ⟨fun hlone n' hn => ?_, fun hlone => ?_, fun {u} hlone => ?_, h.isExact⟩
  · have hfrom : t.node.Rearranges n' := h.rearranges.trans hn.symm
    refine (Node.always_assemble h.isSorted hfrom (hsame.trans hlone)).mono fun b hb => ?_
    refine ⟨Term.beq_of_node_eq hb.1, hb.2, ?_⟩
    rw [hflags, Term.exactFlags_of_node hb.1.symm, h.isEditable]
  · exact Node.isNormalCollection_iff.mpr ⟨h.isSorted, hsame.trans hlone⟩
  · have hnode : t.node = n := h.rearranges.eq_of_lonePart hlone
    obtain ⟨hbuilt, hne⟩ := Node.assemble_of_lonePart (t := t) h.isSorted h.rearranges (hsame.trans hlone)
    exact ⟨hnode, hbuilt, hne rfl⟩

/-- A map, a set or a group of cells that may be edited, in builder normal form, agrees after any calls with
what its builder makes of the contents after the edits that were done, as long as that is more than a
single unknown part; else it is a collection of that part. A call is refused if something else holds the
node, and then nothing changes. -/
theorem agrees_runAll {calls : List EditCall} (hn : t.node.isNormalCollection) (hedit : t.isEditable)
    (hheap : IsHeap k (t :: us)) (hcache : cache.IsExact (t :: us))
    (hfree : ∀ u ∈ us, u.holds t.mark.id = false)
    (hparts : ∀ p ∈ (editsDone t calls).flatMap Edit.parts, p ∈ us) :
    (runAll cache t calls).1.mark = t.mark ∧
      Agrees us (runAll cache t calls).2 (runAll cache t calls).1
        (Edit.contentsAfter (editsDone t calls) t.node) ∧
      ∀ (t' : Term) (cache' : FlagCache) (c : EditCall), t'.mark = t.mark →
        (t'.editInPlace cache' c.others c.edits).1.isSome = c.isAccepted t ∧
          (c.isAccepted t = false → t'.editInPlace cache' c.others c.edits = (none, t', cache')) := by
  have hsorted : t.node.IsSorted := (Node.isNormalCollection_iff.mp hn).1
  have hkeeps : Keeps k us cache t t.node := ⟨hedit, hsorted, hsorted.rearranges, hheap, hcache⟩
  obtain ⟨hmark, hkeeps⟩ := hkeeps.runAll hfree calls rfl hparts
  refine ⟨hmark, hkeeps.agrees, fun t' cache' c hmark' => ?_⟩
  rw [← isAccepted_congr hmark']
  cases hc : c.isAccepted t' with
  | true => exact ⟨by rw [editInPlace_of_accepted hc]; rfl, fun h => by cases h⟩
  | false => exact ⟨by rw [editInPlace_of_refused hc]; rfl, fun _ => editInPlace_of_refused hc⟩

/-- An editable map from one number to another and of an unknown part. -/
def oneEntry : Term :=
  ⟨{ id := 1, isEditable := true },
    .map .map [(.token .int "1", .token .int "2")] [⟨{ id := 2 }, .var { name := "M", sort := .map }⟩]⟩

/-- Flags for the nodes of `oneEntry`. -/
def oneEntryFlags : FlagCache := fun id =>
  if id = 1 then oneEntry.exactFlags else { occurring := { hasVariable := true } }

/-- The first call is refused, as the map is held elsewhere; the second one changes the entry. -/
theorem agrees_oneEntry :
    let calls : List EditCall := [⟨[oneEntry], [.remove (.token .int "1")]⟩,
      ⟨[], [.put (.token .int "3") (.token .int "2"), .remove (.token .int "1")]⟩]
    let us : List Term := [.token .int "3", .token .int "2", .token .int "1"]
    oneEntry.node.isNormalCollection ∧
      (Edit.contentsAfter (editsDone oneEntry calls) oneEntry.node).lonePart? = none ∧
      Agrees us (runAll oneEntryFlags oneEntry calls).2 (runAll oneEntryFlags oneEntry calls).1
        (Edit.contentsAfter (editsDone oneEntry calls) oneEntry.node) := by
  intro calls us
  have hheap : IsHeap 3 (oneEntry :: us) :=
    .of_nodes Term.mem_subterms_of_isNode (by decide) (by decide) (by decide)
  have hexact : ∀ c ∈ (oneEntry :: us).flatMap Term.subterms, oneEntryFlags.get c = c.exactFlags := by decide
  have hcache : oneEntryFlags.IsExact (oneEntry :: us) := fun c hc => hexact c (Term.mem_subterms_of_isNode hc)
  have hdone : editsDone oneEntry calls = [.put (.token .int "3") (.token .int "2"), .remove (.token .int "1")] := rfl
  have hparts : ∀ p ∈ (editsDone oneEntry calls).flatMap Edit.parts, p ∈ us := by
    rw [hdone]
    exact fun p hp => hp
  exact ⟨by decide, rfl, (agrees_runAll (by decide) rfl hheap hcache (by decide) hparts).2.1⟩

/-- Without its only entry the map stays a map, where the builder gives the unknown part. -/
theorem removeOnlyEntry_ne_rebuilt :
    oneEntry.node.isNormalCollection ∧ oneEntry.isEditable ∧
      ∃ (t' : Term) (results : List EditResult),
        oneEntry.edit? [] [.remove (.token .int "1")] = some (t', results) ∧
          ∃ u, (Edit.contentsAfter [.remove (.token .int "1")] oneEntry.node).assemble = pure u ∧
            (u == t') = false :=
  ⟨by decide, rfl, _, _, rfl, _, rfl, by decide⟩

end EditCall

end RuleCompiler
