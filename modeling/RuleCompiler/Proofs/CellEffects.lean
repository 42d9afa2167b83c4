import Mathlib.Data.List.Perm.Subperm
import RuleCompiler.Proofs.Rebuilding.LiftedPatterns
import RuleCompiler.Proofs.RewriteLifting
import RuleCompiler.Rule.CellEffects

/-! # What cell effects say

The effects of a rule body record the cells that are written or copied as a whole, in the order in which
the walk comes to them (`Term.touched`). Where the cells of the left side have different labels none of them
replaces another one, so that reads, writes and copies list just these cells, and every cell of the left
side is one of them, has one of them inside, or stands inside of one.

The walk looks at the multiplicity of a cell when it comes to it. It does not go into what it records, and
what stands there may have any number of instances (`exists_instances_copied`). -/

namespace RuleCompiler

/-! ### Cells of a term -/

namespace Term
variable {t : Term} {cs : List Cell} {frames : List Var}

theorem content_mem (hn : t.node = .cells cs frames) {c : Cell} (hc : c ∈ cs) : c.content ∈ t.children := by
  rw [children, hn]
  exact List.mem_map_of_mem hc

/-- The cells at any depth. -/
def cells : Term → List Cell :=
  fold fun t below => match t.node with
    | .cells cs _ => cs ++ below.flatten
    | _ => below.flatten

theorem cells_of_cells (hn : t.node = .cells cs frames) : t.cells = cs ++ cs.flatMap fun c => c.content.cells := by
  rw [cells, fold_eq, ← cells, hn, children, hn, Node.children, List.map_map, ← List.flatMap_def]
  rfl

theorem mem_cells_iff {d : Cell} : d ∈ t.cells ↔
    (∃ cs frames, t.node = .cells cs frames ∧ d ∈ cs) ∨ ∃ c ∈ t.children, d ∈ c.cells := by
  rw [cells, fold_eq, ← cells]
  split
  · rename_i cs frames hn
    rw [List.mem_append, ← List.flatMap_def, List.mem_flatMap]
    simp [hn]
  · rename_i hn
    rw [← List.flatMap_def, List.mem_flatMap]
    exact ⟨.inr, fun h => h.resolve_left fun ⟨cs, frames, hcells, _⟩ => hn cs frames hcells⟩

/-- The cells inside of a cell are further cells of the term. -/
theorem cells_trans {c d : Cell} (hc : c ∈ t.cells) (hd : d ∈ c.content.cells) : d ∈ t.cells := by
  induction t using Term.induction with
  | h t ih =>
    rcases mem_cells_iff.mp hc with ⟨cs, frames, hn, hc⟩ | ⟨u, hu, hc⟩
    · exact mem_cells_iff.mpr (.inr ⟨c.content, content_mem hn hc, hd⟩)
    · exact mem_cells_iff.mpr (.inr ⟨u, hu, ih u hu hc⟩)

theorem cells_of_rewrite {l r : Term} (hn : t.node = .rewrite l r) : t.cells = l.cells ++ r.cells := by
  rw [cells, fold_eq, ← cells, hn, children, hn]
  simp [Node.children]

theorem mem_cells (hn : t.node = .cells cs frames) {d : Cell} :
    d ∈ t.cells ↔ d ∈ cs ∨ ∃ c ∈ cs, d ∈ c.content.cells := by
  rw [cells_of_cells hn, List.mem_append, List.mem_flatMap]

/-- The cells that are written or copied as a whole, among those reached through collections of cells. -/
def touched : Term → List Cell :=
  fold fun t below => match t.node with
    | .cells cs _ => (cs.zip below).flatMap fun (c, inner) =>
      if c.content.isRewrite || !c.content.hasRewrite then [c] else inner
    | _ => []

/-- What the rule reads in a cell that is written or copied as a whole. -/
def pattern (t : Term) : Term :=
  match t.node with
  | .rewrite l _ => l
  | _ => t

theorem pattern_of_not_rewrite (h : t.isRewrite = false) : t.pattern = t := by
  unfold pattern
  split
  · rename_i hn
    rw [isRewrite, hn] at h
    cases h
  · rfl

theorem touched_of_cells (hn : t.node = .cells cs frames) : t.touched = cs.flatMap fun c =>
    if c.content.isRewrite || !c.content.hasRewrite then [c] else c.content.touched := by
  have hzip : cs.zip (cs.map fun c => c.content.touched) = cs.map fun c => (c, c.content.touched) := by
    simpa using List.zip_map' (f := id) (g := fun c : Cell => c.content.touched) (l := cs)
  rw [touched, fold_eq, ← touched, children, hn]
  simp only [Node.children, List.map_map]
  rw [show (touched ∘ fun c : Cell => c.content) = fun c => c.content.touched from rfl, hzip, List.flatMap_map]

theorem mem_touched (hn : t.node = .cells cs frames) {d : Cell} : d ∈ t.touched ↔ ∃ c ∈ cs,
    (c.content.isRewrite ∨ c.content.hasRewrite = false) ∧ d = c ∨
      (c.content.isRewrite = false ∧ c.content.hasRewrite) ∧ d ∈ c.content.touched := by
  rw [touched_of_cells hn, List.mem_flatMap]
  refine exists_congr fun c => and_congr_right fun _ => ?_
  cases c.content.isRewrite <;> cases c.content.hasRewrite <;> simp

end Term

namespace CellEffects
open Term (touched)

variable {t l : Term} {e e' : CellEffects} {cs : List Cell} {frames : List Var}

/-! ### The walk -/

/-- Add a cell that is written or copied as a whole. -/
def record (e : CellEffects) (c : Cell) : CellEffects :=
  match c.content.node with
  | .rewrite l r => e.write c.label l r
  | _ => e.copy c.label c.content

theorem record_of_rewrite {c : Cell} {l r : Term} (h : c.content.node = .rewrite l r) (e : CellEffects) :
    e.record c = e.write c.label l r := by
  rw [record, h]

theorem record_of_ne {c : Cell} (h : ∀ l r, c.content.node ≠ .rewrite l r) (e : CellEffects) :
    e.record c = e.copy c.label c.content := by
  rw [record]
  split
  · exact absurd ‹_› (h _ _)
  · rfl

theorem collect_of_cells (hn : t.node = .cells cs frames) (e : CellEffects) :
    collect t e = cs.foldlM (fun e c => e.cell c (collect c.content)) e := by
  have hzip : cs.zip (cs.map fun c => collect c.content) = cs.map fun c => (c, collect c.content) := by
    simpa using List.zip_map' (f := id) (g := fun c : Cell => collect c.content) (l := cs)
  rw [collect, Term.fold_eq, ← collect, Term.children, hn]
  simp only [Node.children, List.map_map]
  rw [show (collect ∘ fun c : Cell => c.content) = fun c => collect c.content from rfl, hzip, List.foldlM_map]

theorem exists_cells_of_collect (h : collect t e = some e') : ∃ cs frames, t.node = .cells cs frames := by
  rw [collect, Term.fold_eq] at h
  split at h
  · exact ⟨_, _, ‹_›⟩
  · cases h

/-- What is known of a cell that the walk comes to. -/
theorem cell_eq_some {c : Cell} {inner : CellEffects → Option CellEffects} (h : e.cell c inner = some e') :
    c.multiplicity.isMultiple = false ∧
      ((c.content.isRewrite ∨ c.content.hasRewrite = false) ∧ e' = e.record c ∨
        (c.content.isRewrite = false ∧ c.content.hasRewrite) ∧ inner e = some e') := by
  unfold cell at h
  split at h
  · cases h
  · rename_i hone
    refine ⟨by simpa using hone, ?_⟩
    split at h
    · rename_i l r hn
      refine .inl ⟨.inl (by rw [Term.isRewrite, hn]), ?_⟩
      rw [record_of_rewrite hn]
      exact (Option.some.inj h).symm
    · rename_i hn
      have hr := Term.isRewrite_of_ne hn
      cases hmarked : c.content.hasRewrite with
      | true =>
        rw [hmarked] at h
        exact .inr ⟨⟨hr, rfl⟩, h⟩
      | false =>
        rw [hmarked] at h
        refine .inl ⟨.inr rfl, ?_⟩
        rw [record_of_ne hn]
        exact (Option.some.inj h).symm

/-- The term is a collection whose cells have one instance each and are written or copied as a whole, or
are such a collection again. -/
inductive IsCollected : Term → Prop where
  | cells {t : Term} {cs : List Cell} {frames : List Var} (hn : t.node = .cells cs frames)
      (hone : ∀ c ∈ cs, c.multiplicity.isMultiple = false)
      (hinner : ∀ c ∈ cs, c.content.isRewrite = false → c.content.hasRewrite → IsCollected c.content) :
      IsCollected t

/-- The walk records the cells that are written or copied as a whole one after the other. -/
theorem collect_eq_some (h : collect t e = some e') :
    IsCollected t ∧ e' = t.touched.foldl record e := by
  induction t using Term.induction generalizing e e' with
  | h t ih =>
    obtain ⟨cs, frames, hn⟩ := exists_cells_of_collect h
    have hmem {c : Cell} (hc : c ∈ cs) : c.content ∈ t.children := Term.content_mem hn hc
    rw [collect_of_cells hn] at h
    rw [Term.touched_of_cells hn]
    suffices hall : (∀ c ∈ cs, c.multiplicity.isMultiple = false ∧
        (c.content.isRewrite = false → c.content.hasRewrite → IsCollected c.content)) ∧ e' = (cs.flatMap fun c =>
          if c.content.isRewrite || !c.content.hasRewrite then [c] else c.content.touched).foldl record e from
      ⟨.cells hn (fun c hc => (hall.1 c hc).1) fun c hc => (hall.1 c hc).2, hall.2⟩
    clear hn
    induction cs generalizing e with
    | nil =>
      rw [List.foldlM_nil] at h
      exact ⟨List.forall_mem_nil _, (Option.some.inj h).symm⟩
    | cons c cs ihcs =>
      rw [List.foldlM_cons] at h
      obtain ⟨e₁, hc, hcs⟩ := Option.bind_eq_some_iff.mp h
      obtain ⟨hall, he'⟩ := ihcs hcs fun hd => hmem (List.mem_cons_of_mem c hd)
      obtain ⟨hone, hcases⟩ := cell_eq_some hc
      rw [List.flatMap_cons, List.foldl_append]
      rcases hcases with ⟨hwhole, rfl⟩ | ⟨⟨hr, hmarked⟩, hinner⟩
      · refine ⟨List.forall_mem_cons.mpr ⟨⟨hone, fun hr hmarked => ?_⟩, hall⟩, ?_⟩
        · rcases hwhole with h | h <;> simp_all
        · rw [if_pos (by rcases hwhole with h | h <;> simp [h])]
          exact he'
      · obtain ⟨hcollected, rfl⟩ := ih c.content (hmem List.mem_cons_self) hinner
        refine ⟨List.forall_mem_cons.mpr ⟨⟨hone, fun _ _ => hcollected⟩, hall⟩, ?_⟩
        rw [if_neg (by simp [hr, hmarked])]
        exact he'

/-- Below a rewrite that is not a whole content there is one that is. -/
theorem IsCollected.exists_touched (h : IsCollected t) (ht : t.hasRewrite) : ∃ c, c ∈ t.touched := by
  induction t using Term.induction with
  | h t ih =>
    obtain ⟨hn, -, hinner⟩ := h
    obtain ⟨c, hc, hmarked⟩ := Term.exists_cell_hasRewrite hn ht
    cases hr : c.content.isRewrite with
    | true => exact ⟨c, (Term.mem_touched hn).mpr ⟨c, hc, .inl ⟨.inl hr, rfl⟩⟩⟩
    | false =>
      have hmem := Term.content_mem hn hc
      obtain ⟨d, hd⟩ := ih c.content hmem (hinner c hc hr hmarked) hmarked
      exact ⟨d, (Term.mem_touched hn).mpr ⟨c, hc, .inr ⟨⟨hr, hmarked⟩, hd⟩⟩⟩

/-- What is recorded of a body is one of its cells, and its content is a rewrite or has none. -/
theorem IsCollected.of_touched (h : IsCollected t) {c : Cell} (hc : c ∈ t.touched) :
    c ∈ t.cells ∧ (c.content.isRewrite ∨ c.content.hasRewrite = false) := by
  induction t using Term.induction with
  | h t ih =>
    obtain ⟨hn, -, hinner⟩ := h
    obtain ⟨d, hd, ⟨hwhole, rfl⟩ | ⟨⟨hr, hmarked⟩, hcd⟩⟩ := (Term.mem_touched hn).mp hc
    · exact ⟨(Term.mem_cells hn).mpr (.inl hd), hwhole⟩
    · have hmem := Term.content_mem hn hd
      obtain ⟨hcell, hwhole⟩ := ih d.content hmem (hinner d hd hr hmarked) hcd
      exact ⟨(Term.mem_cells hn).mpr (.inr ⟨d, hd, hcell⟩), hwhole⟩

/-- The cells of a body have one instance each if those below what is recorded have. -/
theorem IsCollected.single (h : IsCollected t)
    (hbelow : ∀ c ∈ t.touched, ∀ d ∈ c.content.cells, d.multiplicity.isMultiple = false) :
    ∀ c ∈ t.cells, c.multiplicity.isMultiple = false := by
  induction t using Term.induction with
  | h t ih =>
    obtain ⟨hn, hone, hinner⟩ := h
    intro c hc
    rcases (Term.mem_cells hn).mp hc with hc | ⟨d, hd, hc⟩
    · exact hone c hc
    have hmem := Term.content_mem hn hd
    by_cases hwhole : d.content.isRewrite ∨ d.content.hasRewrite = false
    · exact hbelow d ((Term.mem_touched hn).mpr ⟨d, hd, .inl ⟨hwhole, rfl⟩⟩) c hc
    · have hopen : d.content.isRewrite = false ∧ d.content.hasRewrite := by simpa using hwhole
      refine ih d.content hmem (hinner d hd hopen.1 hopen.2) (fun u hu => ?_) c hc
      exact hbelow u ((Term.mem_touched hn).mpr ⟨d, hd, .inr ⟨hopen, hu⟩⟩)

/-! ### What is recorded -/

theorem reads_record (e : CellEffects) (c : Cell) :
    (e.record c).reads = (some (c.label, c.content.pattern)).elim e.reads fun r =>
      SortedList.put compare r.1 r.2 e.reads := by
  unfold record Term.pattern
  split <;> rfl

/-- What is written to a cell. -/
def written? (c : Cell) : Option (String × Term) :=
  match c.content.node with
  | .rewrite _ r => some (c.label, r)
  | _ => none

theorem written?_eq_some {c : Cell} {w : String × Term} :
    written? c = some w ↔ c.label = w.1 ∧ ∃ l, c.content.node = .rewrite l w.2 := by
  obtain ⟨label, r⟩ := w
  unfold written?
  split <;> simp_all

/-- The label of a cell that stays as it is. -/
def copied? (c : Cell) : Option String := if c.content.isRewrite then none else some c.label

theorem copied?_eq_some {c : Cell} {label : String} :
    copied? c = some label ↔ c.content.isRewrite = false ∧ c.label = label := by
  unfold copied?
  cases c.content.isRewrite <;> simp

theorem writes_record (e : CellEffects) (c : Cell) : (e.record c).writes =
    (written? c).elim e.writes fun w => SortedList.put compare w.1 w.2 e.writes := by
  unfold record written?
  split <;> rfl

theorem copies_record (e : CellEffects) (c : Cell) : (e.record c).copies =
    (copied? c).elim e.copies fun label => SortedList.addNew compare label e.copies := by
  unfold record copied? Term.isRewrite
  split <;> simp_all [write, copy]

/-- A list built by a walk that adds at most one element for each cell. -/
theorem foldl_filterMap {α β : Type} {f : CellEffects → List α} {g : Cell → Option β} {add : β → List α → List α}
    (h : ∀ e c, f (e.record c) = (g c).elim (f e) fun b => add b (f e)) (cs : List Cell) (e : CellEffects) :
    f (cs.foldl record e) = (cs.filterMap g).foldl (fun l b => add b l) (f e) := by
  induction cs generalizing e with
  | nil => rfl
  | cons c cs ih =>
    rw [List.foldl_cons, ih, h]
    cases hc : g c with
    | none => rw [List.filterMap_cons_none hc]; rfl
    | some b => rw [List.filterMap_cons_some hc]; rfl

/-- Entries with different keys are all put in. -/
theorem perm_putAll {es : List (String × Term)} (h : (es.map (·.1)).Nodup) :
    (es.foldl (fun l e => SortedList.put compare e.1 e.2 l) []).Perm es := by
  refine SortedList.perm_foldl (R := fun a b => a.1 ≠ b.1) Ne.symm (fun l a ha => ?_) (List.pairwise_map.mp h)
  exact SortedList.perm_put fun b hb heq => ha b hb (Std.LawfulEqCmp.eq_of_compare heq).symm

theorem perm_addAll {labels : List String} (h : labels.Nodup) :
    (labels.foldl (fun l label => SortedList.addNew compare label l) []).Perm labels := by
  refine SortedList.perm_foldl (R := fun a b => a ≠ b) Ne.symm (fun l a ha => ?_) h
  exact SortedList.perm_addNew fun b hb heq => ha b hb (Std.LawfulEqCmp.eq_of_compare heq).symm

variable {c : Cell}

/-- The effects of a body whose recorded cells have different labels: their patterns, what is written to
those that are rewritten, and the labels of the others. -/
theorem perm_record (h : (cs.map (·.label)).Nodup) :
    (cs.foldl record {}).reads.Perm (cs.map fun c => (c.label, c.content.pattern)) ∧
      (cs.foldl record {}).writes.Perm (cs.filterMap written?) ∧
        (cs.foldl record {}).copies.Perm (cs.filterMap copied?) := by
  have hwritten : ((cs.filterMap written?).map (·.1)).Nodup := by
    refine (List.pairwise_map.mpr ?_)
    refine List.pairwise_filterMap.mpr ((List.pairwise_map.mp h).imp fun hne w hw w' hw' => ?_)
    rw [← (written?_eq_some.mp hw).1, ← (written?_eq_some.mp hw').1]
    exact hne
  have hcopied : (cs.filterMap copied?).Nodup := by
    refine List.pairwise_filterMap.mpr ((List.pairwise_map.mp h).imp fun hne w hw w' hw' => ?_)
    rw [← (copied?_eq_some.mp hw).2, ← (copied?_eq_some.mp hw').2]
    exact hne
  refine ⟨?_, ?_, ?_⟩
  · rw [foldl_filterMap fun e c => reads_record e c, List.filterMap_eq_map']
    exact perm_putAll (by rw [List.map_map]; exact h)
  · rw [foldl_filterMap fun e c => writes_record e c]
    exact perm_putAll hwritten
  · rw [foldl_filterMap fun e c => copies_record e c]
    exact perm_addAll hcopied

/-- The effects list cells with different labels and what is read, written and copied there. -/
structure Lists (e : CellEffects) (cells : List Cell) : Prop where
  nodup : (cells.map (·.label)).Nodup
  mem_reads : ∀ {r : String × Term}, r ∈ e.reads ↔ ∃ c ∈ cells, (c.label, c.content.pattern) = r
  keys : e.reads.map (·.1) |>.Perm (cells.map (·.label))
  mem_writes : ∀ {w : String × Term}, w ∈ e.writes ↔ ∃ c ∈ cells, written? c = some w
  mem_copies : ∀ {label : String}, label ∈ e.copies ↔ ∃ c ∈ cells, copied? c = some label

theorem lists_record (h : (cs.map (·.label)).Nodup) : (cs.foldl record {}).Lists cs := by
  obtain ⟨hreads, hwrites, hcopies⟩ := perm_record h
  refine ⟨h, hreads.mem_iff.trans List.mem_map, ?_, hwrites.mem_iff.trans List.mem_filterMap,
    hcopies.mem_iff.trans List.mem_filterMap⟩
  have hkeys := hreads.map (·.1)
  rwa [List.map_map] at hkeys

theorem Lists.mem_keys (h : e.Lists cs) {label : String} :
    label ∈ e.reads.map (·.1) ↔ ∃ c ∈ cs, c.label = label :=
  h.keys.mem_iff.trans List.mem_map

/-- What is read in a rewritten cell, and what is written to it. -/
theorem Lists.of_rewrite {left right : Term} (h : e.Lists cs) (hc : c ∈ cs) (hn : c.content.node = .rewrite left right) :
    (c.label, left) ∈ e.reads ∧ (c.label, right) ∈ e.writes := by
  refine ⟨h.mem_reads.mpr ⟨c, hc, ?_⟩, h.mem_writes.mpr ⟨c, hc, written?_eq_some.mpr ⟨rfl, left, hn⟩⟩⟩
  rw [Term.pattern, hn]

/-- The labels written and the labels copied are those read. -/
theorem Lists.partition (h : e.Lists cs) : (∀ label ∈ e.copies, label ∉ e.writes.map (·.1)) ∧
    ∀ label, label ∈ e.reads.map (·.1) ↔ label ∈ e.writes.map (·.1) ∨ label ∈ e.copies := by
  constructor
  · intro label hlabel hwritten
    obtain ⟨c, hc, hcopied⟩ := h.mem_copies.mp hlabel
    obtain ⟨w, hw, rfl⟩ := List.mem_map.mp hwritten
    obtain ⟨d, hd, hwd⟩ := h.mem_writes.mp hw
    obtain ⟨hr, hcl⟩ := copied?_eq_some.mp hcopied
    obtain ⟨hdl, left, hn⟩ := written?_eq_some.mp hwd
    have heq : c = d := List.inj_on_of_nodup_map h.nodup hc hd (hcl.trans hdl.symm)
    rw [heq, Term.isRewrite, hn] at hr
    cases hr
  · intro label
    rw [h.mem_keys]
    constructor
    · rintro ⟨c, hc, rfl⟩
      cases hr : c.content.isRewrite with
      | false => exact .inr (h.mem_copies.mpr ⟨c, hc, copied?_eq_some.mpr ⟨hr, rfl⟩⟩)
      | true =>
        obtain ⟨left, right, hn⟩ := Term.exists_sides_of_isRewrite hr
        exact .inl (List.mem_map_of_mem (h.of_rewrite hc hn).2)
    · rintro (hwritten | hcopied)
      · obtain ⟨w, hw, rfl⟩ := List.mem_map.mp hwritten
        obtain ⟨c, hc, hcw⟩ := h.mem_writes.mp hw
        exact ⟨c, hc, (written?_eq_some.mp hcw).1⟩
      · obtain ⟨c, hc, hcl⟩ := h.mem_copies.mp hcopied
        exact ⟨c, hc, (copied?_eq_some.mp hcl).2⟩

/-- The cells inside of what is recorded are those inside of the cells listed. -/
theorem Lists.inside (h : e.Lists cs) {d : Cell} :
    (∃ r ∈ e.reads ++ e.writes, d ∈ r.2.cells) ↔ ∃ c ∈ cs, d ∈ c.content.cells := by
  constructor
  · rintro ⟨r, hr, hd⟩
    rcases List.mem_append.mp hr with hr | hr
    · obtain ⟨c, hc, rfl⟩ := h.mem_reads.mp hr
      refine ⟨c, hc, ?_⟩
      cases hrewrite : c.content.isRewrite with
      | false =>
        rw [Term.pattern_of_not_rewrite hrewrite] at hd
        exact hd
      | true =>
        obtain ⟨left, right, hn⟩ := Term.exists_sides_of_isRewrite hrewrite
        rw [Term.pattern, hn] at hd
        rw [Term.cells_of_rewrite hn]
        exact List.mem_append_left _ hd
    · obtain ⟨c, hc, hw⟩ := h.mem_writes.mp hr
      obtain ⟨-, left, hn⟩ := written?_eq_some.mp hw
      refine ⟨c, hc, ?_⟩
      rw [Term.cells_of_rewrite hn]
      exact List.mem_append_right _ hd
  · rintro ⟨c, hc, hd⟩
    cases hrewrite : c.content.isRewrite with
    | false =>
      refine ⟨_, List.mem_append_left _ (h.mem_reads.mpr ⟨c, hc, rfl⟩), ?_⟩
      rw [Term.pattern_of_not_rewrite hrewrite]
      exact hd
    | true =>
      obtain ⟨left, right, hn⟩ := Term.exists_sides_of_isRewrite hrewrite
      obtain ⟨hread, hwrite⟩ := h.of_rewrite hc hn
      rw [Term.cells_of_rewrite hn] at hd
      rcases List.mem_append.mp hd with hd | hd
      · exact ⟨_, List.mem_append_left _ hread, hd⟩
      · exact ⟨_, List.mem_append_right _ hwrite, hd⟩

/-! ### The left side -/

/-- The cells of the left side of a collection are the left sides of its cells, in some order. -/
theorem exists_sides (hn : t.node = .cells cs frames) (h : Side.IsSide .left t l) : ∃ ls frames' es,
    l.node = .cells ls frames' ∧ es.Perm ls ∧ List.Forall₂
      (fun c e : Cell => e.label = c.label ∧ Side.IsSide .left c.content e.content) cs es := by
  -- what equals such a collection is one
  have hequal {v : Term} {es ds : List Cell} {vs : List Var} (hv : v.node = .cells ds vs) (hperm : es.Perm ds)
      (hes : List.Forall₂ (fun c e : Cell => e.label = c.label ∧ Side.IsSide .left c.content e.content) cs es)
      (hlv : l == v) : ∃ ls frames' es, l.node = .cells ls frames' ∧ es.Perm ls ∧ List.Forall₂
        (fun c e : Cell => e.label = c.label ∧ Side.IsSide .left c.content e.content) cs es := by
    have halike := Term.alike_of_beq (BEq.symm hlv)
    rw [hv] at halike
    generalize hm : l.node = m at halike
    cases halike with
    | @cells _ ls _ hds =>
      obtain ⟨es', hes', hperm'⟩ := List.perm_comp_forall₂ hperm hds
      refine ⟨ls, vs, es', rfl, hperm', ?_⟩
      exact PairedLists.comp (fun _ _ _ h h' => ⟨h'.1.symm.trans h.1, h.2.congr h'.2.2⟩) hes hes'
  cases hr : t.hasRewrite with
  | false =>
    refine hequal hn (List.Perm.refl cs) (List.forall₂_same.mpr fun c hc => ⟨rfl, ?_⟩) (h.beq_self hr)
    exact .kept (Term.hasRewrite_child hr (Term.content_mem hn hc)) (BEq.refl _)
  | true =>
    obtain ⟨es, v, hes, hv, hlv⟩ := h.cells hn hr
    exact hequal hv (SortedList.perm_sort es).symm (hes.imp fun _ _ h => ⟨h.1, h.2.2⟩) hlv

/-- What the left side of a whole content says is its pattern. -/
theorem beq_pattern {u : Term} (hflat : t.HasFlatRewrites) (hwhole : t.isRewrite ∨ t.hasRewrite = false)
    (h : Side.IsSide .left t u) : u == t.pattern := by
  unfold Term.pattern
  split
  · rename_i l r hn
    cases h with
    | kept h => simp [Term.hasRewrite_of_isRewrite (t := t) (by rw [Term.isRewrite, hn])] at h
    | made _ h => simp [Term.isRewrite, hn] at h
    | side hn' h =>
      cases hn.symm.trans hn'
      exact h.beq_self (hflat.sides hn).1
  · rename_i hn
    have hr : t.isRewrite = false := Term.isRewrite_of_ne hn
    exact h.beq_self (hwhole.resolve_left (by simp [hr]))

/-- The cells recorded are cells of the left side with what is read there for content. -/
theorem IsCollected.exists_read (h : IsCollected t) (hflat : t.HasFlatRewrites) (hl : Side.IsSide .left t l)
    (hc : c ∈ t.touched) : ∃ d ∈ l.cells, d.label = c.label ∧ d.content == c.content.pattern := by
  induction t using Term.induction generalizing l with
  | h t ih =>
    obtain ⟨hn, -, hinner⟩ := h
    obtain ⟨ls, frames', es, hln, hperm, hes⟩ := exists_sides hn hl
    obtain ⟨d, hd, hcase⟩ := (Term.mem_touched hn).mp hc
    obtain ⟨e, he, hlabel, hside⟩ := PairedLists.exists_mem hes hd
    have hmem := Term.content_mem hn hd
    have hel := hperm.mem_iff.mp he
    rcases hcase with ⟨hwhole, rfl⟩ | ⟨⟨hr, hmarked⟩, hcd⟩
    · exact ⟨e, (Term.mem_cells hln).mpr (.inl hel), hlabel, beq_pattern (hflat.child hmem) hwhole hside⟩
    · obtain ⟨u, hu, heq⟩ := ih d.content hmem (hinner d hd hr hmarked) (hflat.child hmem) hside hcd
      exact ⟨u, (Term.mem_cells hln).mpr (.inr ⟨e, hel, hu⟩), heq⟩

/-- A cell of the left side is recorded, or there is such a cell inside, or it is inside of one. -/
theorem IsCollected.exists_near (h : IsCollected t) (hflat : t.HasFlatRewrites) (hl : Side.IsSide .left t l)
    (hc : c ∈ l.cells) : ∃ d ∈ l.cells, d.label ∈ t.touched.map (·.label) ∧
      (c = d ∨ c ∈ d.content.cells ∨ d ∈ c.content.cells) := by
  induction t using Term.induction generalizing l with
  | h t ih =>
    obtain ⟨hn, -, hinner⟩ := h
    obtain ⟨ls, frames', es, hln, hperm, hes⟩ := exists_sides hn hl
    -- what is inside of a cell of the left side, seen from the outside
    have hinside {e d u : Cell} (he : e ∈ ls) (hd : d ∈ e.content.cells)
        (h : u = d ∨ u ∈ d.content.cells ∨ d ∈ u.content.cells) (hlabel : d.label ∈ t.touched.map (·.label)) :
        ∃ d ∈ l.cells, d.label ∈ t.touched.map (·.label) ∧ (u = d ∨ u ∈ d.content.cells ∨ d ∈ u.content.cells) :=
      ⟨d, (Term.mem_cells hln).mpr (.inr ⟨e, he, hd⟩), hlabel, h⟩
    obtain ⟨e, he, hce⟩ : ∃ e ∈ ls, c = e ∨ c ∈ e.content.cells := by
      rcases (Term.mem_cells hln).mp hc with hc | ⟨e, he, hc⟩
      · exact ⟨c, hc, .inl rfl⟩
      · exact ⟨e, he, .inr hc⟩
    obtain ⟨d, hd, hlabel, hside⟩ := PairedLists.exists_mem hes.flip (hperm.mem_iff.mpr he)
    have hmem := Term.content_mem hn hd
    by_cases hwhole : d.content.isRewrite ∨ d.content.hasRewrite = false
    · refine ⟨e, (Term.mem_cells hln).mpr (.inl he), ?_, hce.imp_right .inl⟩
      rw [hlabel]
      exact List.mem_map_of_mem ((Term.mem_touched hn).mpr ⟨d, hd, .inl ⟨hwhole, rfl⟩⟩)
    · have hopen : d.content.isRewrite = false ∧ d.content.hasRewrite := by simpa using hwhole
      have hcollected := hinner d hd hopen.1 hopen.2
      have hup {label : String} (h : label ∈ d.content.touched.map (·.label)) : label ∈ t.touched.map (·.label) := by
        obtain ⟨u, hu, rfl⟩ := List.mem_map.mp h
        exact List.mem_map_of_mem ((Term.mem_touched hn).mpr ⟨d, hd, .inr ⟨hopen, hu⟩⟩)
      rcases hce with rfl | hce
      · obtain ⟨u, hu⟩ := hcollected.exists_touched hopen.2
        obtain ⟨v, hv, hvu, -⟩ := hcollected.exists_read (hflat.child hmem) hside hu
        refine hinside he hv (.inr (.inr hv)) (hup ?_)
        rw [hvu]
        exact List.mem_map_of_mem hu
      · obtain ⟨u, hu, hul, hnear⟩ := ih d.content hmem hcollected (hflat.child hmem) hside hce
        exact hinside he hu hnear (hup hul)

theorem subperm_flatMap {α β γ : Type} {R : α → β → Prop} {f : α → List γ} {g : β → List γ} {as : List α} {bs : List β}
    (h : List.Forall₂ R as bs) (hR : ∀ a ∈ as, ∀ b, R a b → (f a).Subperm (g b)) :
    (as.flatMap f).Subperm (bs.flatMap g) := by
  induction h with
  | nil => exact List.Subperm.refl _
  | @cons a b as bs hab _ ih =>
    rw [List.flatMap_cons, List.flatMap_cons]
    exact (hR a List.mem_cons_self b hab).append (ih fun c hc => hR c (List.mem_cons_of_mem a hc))

/-- Cells of the left side with different labels leave the recorded ones different labels. -/
theorem IsCollected.subperm_labels (h : IsCollected t) (hl : Side.IsSide .left t l) :
    (t.touched.map (·.label)).Subperm (l.cells.map (·.label)) := by
  induction t using Term.induction generalizing l with
  | h t ih =>
    obtain ⟨hn, -, hinner⟩ := h
    obtain ⟨ls, frames', es, hln, hperm, hes⟩ := exists_sides hn hl
    have hcells : (ls ++ ls.flatMap fun e => e.content.cells).Perm
        (es.flatMap fun e => [e] ++ e.content.cells) := by
      refine List.Perm.trans ?_ (List.flatMap_append_perm es _ _)
      rw [List.flatMap_singleton']
      exact hperm.symm.append (hperm.symm.flatMap_right _)
    rw [Term.cells_of_cells hln, Term.touched_of_cells hn]
    refine List.Subperm.trans ?_ (hcells.map _).symm.subperm
    rw [List.map_flatMap, List.map_flatMap]
    refine subperm_flatMap hes fun d hd e hde => ?_
    have hmem := Term.content_mem hn hd
    split
    · rw [List.map_append, List.map_singleton, List.map_singleton, hde.1]
      exact (List.sublist_append_left _ _).subperm
    · rename_i hopen
      have hopen : d.content.isRewrite = false ∧ d.content.hasRewrite := by simpa using hopen
      rw [List.map_append]
      exact (ih d.content hmem (hinner d hd hopen.1 hopen.2) hde.2).trans (List.sublist_append_right _ _).subperm

/-! ### What the effects of a body say -/

/-- The effects describe the body, whose left side is `l`, cell by cell. -/
structure IsFaithful (e : CellEffects) (body l : Term) : Prop where
  keys : (e.reads.map (·.1)).Nodup
  disjoint : ∀ label ∈ e.copies, label ∉ e.writes.map (·.1)
  labels : ∀ label, label ∈ e.reads.map (·.1) ↔ label ∈ e.writes.map (·.1) ∨ label ∈ e.copies
  written : ∀ w ∈ e.writes, ∃ c ∈ body.cells, c.label = w.1 ∧
    ∃ left, c.content.node = .rewrite left w.2 ∧ (w.1, left) ∈ e.reads
  copied : ∀ label ∈ e.copies, ∃ c ∈ body.cells, c.label = label ∧ c.content.hasRewrite = false ∧
    (label, c.content) ∈ e.reads
  read : ∀ r ∈ e.reads, ∃ c ∈ l.cells, c.label = r.1 ∧ c.content == r.2
  near : ∀ c ∈ l.cells, ∃ d ∈ l.cells, d.label ∈ e.reads.map (·.1) ∧
    (c = d ∨ c ∈ d.content.cells ∨ d ∈ c.content.cells)

/-- The effects of a body without nested rewrites are faithful if the cells of its left side have different
labels. Its cells have one instance each just when those inside of what is recorded have. -/
theorem body_faithful {body : Term} {b n n' : Nat} (hmade : body.MadeBefore b) (hn : b ≤ n)
    (hflat : body.HasFlatRewrites) (hl : body.leftSide n = (.ok l, n')) (hlabels : (l.cells.map (·.label)).Nodup)
    (he : ofBody? body = some e) : e.IsFaithful body l ∧
      ((∀ c ∈ body.cells, c.multiplicity.isMultiple = false) ↔
        ∀ r ∈ e.reads ++ e.writes, ∀ c ∈ r.2.cells, c.multiplicity.isMultiple = false) := by
  obtain ⟨hcollected, rfl⟩ := collect_eq_some he
  have hside : Side.IsSide .left body l := by
    obtain ⟨u, k, hrun, -, hu⟩ := Side.gives_walk .left body hmade hn
    cases hrun.symm.trans hl
    exact hu.isSide
  have hlists : (body.touched.foldl record {}).Lists body.touched := by
    obtain ⟨labels, hperm, hsub⟩ := hcollected.subperm_labels hside
    exact lists_record (hperm.nodup_iff.mp (hlabels.sublist hsub))
  generalize body.touched.foldl record {} = e at he hlists
  refine ⟨?_, fun h r hr c hc => ?_, fun h => hcollected.single fun c hc d hd => ?_⟩
  · constructor
    case keys => exact hlists.keys.nodup_iff.mpr hlists.nodup
    case disjoint => exact hlists.partition.1
    case labels => exact hlists.partition.2
    case written =>
      intro w hw
      obtain ⟨c, hc, hcw⟩ := hlists.mem_writes.mp hw
      obtain ⟨hlabel, left, hnode⟩ := written?_eq_some.mp hcw
      exact ⟨c, (hcollected.of_touched hc).1, hlabel, left, hnode, hlabel ▸ (hlists.of_rewrite hc hnode).1⟩
    case copied =>
      intro label hlabel
      obtain ⟨c, hc, hcl⟩ := hlists.mem_copies.mp hlabel
      obtain ⟨hr, rfl⟩ := copied?_eq_some.mp hcl
      obtain ⟨hcell, hwhole⟩ := hcollected.of_touched hc
      refine ⟨c, hcell, rfl, hwhole.resolve_left (by simp [hr]), hlists.mem_reads.mpr ⟨c, hc, ?_⟩⟩
      rw [Term.pattern_of_not_rewrite hr]
    case read =>
      intro r hr
      obtain ⟨c, hc, rfl⟩ := hlists.mem_reads.mp hr
      exact hcollected.exists_read hflat hside hc
    case near =>
      intro c hc
      obtain ⟨d, hd, hlabel, hnear⟩ := hcollected.exists_near hflat hside hc
      exact ⟨d, hd, hlists.keys.mem_iff.mpr hlabel, hnear⟩
  · obtain ⟨d, hd, hcd⟩ := hlists.inside.mp ⟨r, hr, hc⟩
    exact h c (Term.cells_trans (hcollected.of_touched hd).1 hcd)
  · obtain ⟨r, hr, hdr⟩ := hlists.inside.mpr ⟨c, hc, hd⟩
    exact h r hr d hdr

/-- A cell that is rewritten and one with the content given, inside of a third one. -/
def besideRewrite (content : Term) : Term :=
  let k : Cell := ⟨"k", .one, ⟨⟨3, false⟩, .rewrite (.constant "a") (.constant "b")⟩⟩
  ⟨⟨5, false⟩, .cells [⟨"T", .one, ⟨⟨4, false⟩, .cells [k, ⟨"threads", .one, content⟩] []⟩⟩] []⟩

theorem besideRewrite_faithful : ∃ (e : CellEffects) (l : Term),
    (∀ r ∈ e.reads ++ e.writes, ∀ c ∈ r.2.cells, c.multiplicity.isMultiple = false) ∧
      e.IsFaithful (besideRewrite .dotK) l ∧
        ((∀ c ∈ (besideRewrite .dotK).cells, c.multiplicity.isMultiple = false) ↔
          ∀ r ∈ e.reads ++ e.writes, ∀ c ∈ r.2.cells, c.multiplicity.isMultiple = false) := by
  refine ⟨_, _, ?_, body_faithful (b := 6) (n := 6) ?_ (Nat.le_refl 6) ?_ rfl ?_ rfl⟩
  · decide
  · decide
  · exact ((@Misplacement.nested_or_call_iff [] _).mp (by decide)).1
  · decide

/-- Effects do not show what stands inside of a cell that is copied: here cells that may occur any number
of times. -/
theorem exists_instances_copied : ∃ (body l : Term) (n' : Nat) (e : CellEffects), body.MadeBefore 6 ∧
    body.HasFlatRewrites ∧ body.leftSide 6 = (.ok l, n') ∧ (l.cells.map (·.label)).Nodup ∧ ofBody? body = some e ∧
      ¬ ∀ c ∈ body.cells, c.multiplicity.isMultiple = false :=
  ⟨besideRewrite ⟨⟨2, false⟩, .cells [⟨"thread", .any, .int 1⟩] []⟩, _, _, _, by decide,
    ((@Misplacement.nested_or_call_iff [] _).mp (by decide)).1, rfl, by decide, rfl,
    by decide⟩

end CellEffects

end RuleCompiler
