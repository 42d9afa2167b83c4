import Mathlib.Data.List.Induction
import Mathlib.Data.List.Nodup
import RuleCompiler.Diagnostic.Queue
import RuleCompiler.Proofs.SortedList

/-! # What a report says

Diagnostics that come one after the other are heard until the error limit is reached, and those that come
later are lost, of whatever severity. The report is what was heard, without repetitions if those are
dropped, in the order of the locations, and a last word if the limit was reached, also where nothing was lost. -/

namespace RuleCompiler.DiagnosticQueue

variable {limit : Nat} {deduplicate : Bool} {ds heard lost : List Diagnostic} {q : DiagnosticQueue}

/-! ### The order of locations -/

/-- The order of what the diagnostics point at. -/
abbrev compareStarts (l m : Location) : Ordering :=
  (compare l.source m.source).then (compare l.span.start m.span.start)

instance transCmp_compareStarts : Std.TransCmp compareStarts :=
  inferInstanceAs (Std.TransCmp (compareLex (compareOn Location.source)
    (compareOn fun l : Location => l.span.start)))

instance : Std.TransCmp compareLocations where
  eq_swap {a b} := by
    unfold compareLocations
    cases a.primary? <;> cases b.primary? <;> try rfl
    exact transCmp_compareStarts.eq_swap
  isLE_trans {a b c} := by
    unfold compareLocations
    cases a.primary? <;> cases b.primary? <;> cases c.primary? <;> try simp
    exact transCmp_compareStarts.isLE_trans

/-- `sorted` is `ds` in the order of the locations; diagnostics that this order does not tell apart stay in
the order they came in. -/
structure SortsByLocation (ds sorted : List Diagnostic) : Prop where
  perm : sorted.Perm ds
  ordered : sorted.Pairwise fun a b => (compareLocations a b).isLE
  stable : ∀ d, sorted.filter (compareLocations d · == .eq) = ds.filter (compareLocations d · == .eq)

theorem sortsByLocation_sort (ds : List Diagnostic) :
    SortsByLocation ds (SortedList.sort compareLocations ds) where
  perm := SortedList.perm_sort ds
  ordered := SortedList.sorted_sort ds
  stable d := SortedList.filter_sort fun a _ ha b _ hb hlt => by
    have hba : compareLocations b a = .eq :=
      Std.TransCmp.eq_trans (Std.OrientedCmp.eq_symm (beq_iff_eq.mp hb)) (beq_iff_eq.mp ha)
    rw [hba] at hlt
    cases hlt

/-! ### What is recorded -/

/-- The number of errors among the diagnostics. -/
def errors (ds : List Diagnostic) : Nat := ds.countP Diagnostic.isError

/-- The diagnostics, each of them once if repetitions are dropped. -/
def distinct (deduplicate : Bool) (ds : List Diagnostic) : List Diagnostic :=
  if deduplicate then ds.eraseDups else ds

/-- Whether `d` repeats one of the diagnostics before it, and repetitions are dropped. -/
def Repeats (deduplicate : Bool) (before : List Diagnostic) (d : Diagnostic) : Prop :=
  deduplicate ∧ d ∈ before

/-- Whether the error limit is reached with `d`: an error, not dropped as a repetition, that is at least the
`limit`-th to come, repetitions counted. -/
def Reaches (limit : Nat) (deduplicate : Bool) (before : List Diagnostic) (d : Diagnostic) : Prop :=
  d.isError ∧ ¬Repeats deduplicate before d ∧ 0 < limit ∧ limit ≤ errors (before ++ [d])

theorem errors_concat (ds : List Diagnostic) (d : Diagnostic) :
    errors (ds ++ [d]) = errors ds + if d.isError then 1 else 0 := by
  rw [errors, List.countP_append, List.countP_singleton, errors]

theorem distinct_concat_of_repeats {d : Diagnostic} (h : Repeats deduplicate ds d) :
    distinct deduplicate (ds ++ [d]) = distinct deduplicate ds := by
  obtain ⟨rfl, hd⟩ := h
  simp [distinct, List.eraseDups_append, List.removeAll, hd]

theorem distinct_concat {d : Diagnostic} (h : ¬Repeats deduplicate ds d) :
    distinct deduplicate (ds ++ [d]) = distinct deduplicate ds ++ [d] := by
  cases deduplicate with
  | false => rfl
  | true =>
    have hd : d ∉ ds := fun hd => h ⟨rfl, hd⟩
    simp [distinct, List.eraseDups_append, List.removeAll, hd, List.eraseDups_cons]

theorem mem_distinct {d : Diagnostic} : d ∈ distinct deduplicate ds ↔ d ∈ ds := by
  cases deduplicate
  · rfl
  · exact List.mem_eraseDups

theorem nodup_distinct (ds : List Diagnostic) : (distinct true ds).Nodup := by
  induction ds using List.reverseRecOn with
  | nil => exact List.nodup_nil
  | append_singleton ds d ih =>
    by_cases hd : Repeats true ds d
    · rwa [distinct_concat_of_repeats hd]
    · rw [distinct_concat hd, List.nodup_append_comm]
      exact List.nodup_cons.mpr ⟨fun h => hd ⟨rfl, mem_distinct.mp h⟩, ih⟩

/-! ### One diagnostic -/

theorem admits_iff {d : Diagnostic} (hq : q.recorded = distinct q.deduplicate heard) :
    q.admits d ↔ q.limitReached = false ∧ ¬Repeats q.deduplicate heard d := by
  rw [admits, Bool.and_eq_true, Bool.not_eq_true', Bool.not_eq_true', ← Bool.not_eq_true (_ && _),
    Bool.and_eq_true, List.contains_iff_mem, hq, mem_distinct, Repeats]

/-- What adding diagnostics has made of a queue: those in `heard` came until the limit was reached, those in
`lost` after that. -/
structure Tracks (q : DiagnosticQueue) (heard lost : List Diagnostic) : Prop where
  recorded : q.recorded = distinct q.deduplicate heard
  errorCount : q.errorCount = errors (heard ++ lost)
  /-- With the last one heard the limit is reached, if it is. -/
  limitReached : q.limitReached ↔ ∃ before d, heard = before ++ [d] ∧ Reaches q.limit q.deduplicate before d
  /-- It is not reached before that. -/
  until_last : ∀ before d after, heard = before ++ d :: after → Reaches q.limit q.deduplicate before d →
    after = []
  lost : q.limitReached = false → lost = []

theorem tracks_empty (limit : Nat) (deduplicate : Bool) : Tracks { limit, deduplicate } [] [] where
  recorded := by cases deduplicate <;> rfl
  errorCount := rfl
  limitReached := by simp
  until_last := by simp
  lost _ := rfl

theorem add_of_not_admits {d : Diagnostic} (h : ¬q.admits d) :
    q.add d = { q with errorCount := q.errorCount + if d.isError then 1 else 0 } := by
  unfold add
  rw [if_neg h]
  split <;> rfl

theorem add_of_admits {d : Diagnostic} (h : q.admits d) :
    q.add d = { q with
      recorded := q.recorded ++ [d]
      errorCount := q.errorCount + if d.isError then 1 else 0
      limitReached := d.isError && 0 < q.limit && q.limit ≤ q.errorCount + if d.isError then 1 else 0 } := by
  unfold add
  rw [if_pos h]
  split <;> rfl

/-- A diagnostic that comes after the limit was reached is lost. -/
theorem Tracks.add_lost (h : Tracks q heard lost) (hq : q.limitReached) (d : Diagnostic) :
    Tracks (q.add d) heard (lost ++ [d]) := by
  have hadmits : ¬q.admits d := fun ha => by
    rw [((admits_iff h.recorded).mp ha).1] at hq
    cases hq
  rw [add_of_not_admits hadmits]
  refine { h with errorCount := ?_, lost := fun hf => ?_ }
  · rw [← List.append_assoc, errors_concat, ← h.errorCount]
  · rw [show q.limitReached = false from hf] at hq
    cases hq

/-- Before that every diagnostic is heard. -/
theorem Tracks.add_heard (h : Tracks q heard lost) (hq : q.limitReached = false) (d : Diagnostic) :
    Tracks (q.add d) (heard ++ [d]) [] := by
  have hcount : q.errorCount = errors heard := by rw [h.errorCount, h.lost hq, List.append_nil]
  have hopen : ∀ before e after, heard = before ++ e :: after → ¬Reaches q.limit q.deduplicate before e := by
    intro before e after he hr
    have hlast : after = [] := h.until_last before e after he hr
    have hreached : q.limitReached := h.limitReached.mpr ⟨before, e, hlast ▸ he, hr⟩
    rw [hq] at hreached
    cases hreached
  have hlast : ∀ before e after, heard ++ [d] = before ++ e :: after →
      Reaches q.limit q.deduplicate before e → after = [] := by
    intro before e after he hr
    cases after using List.reverseRecOn with
    | nil => rfl
    | append_singleton after e' =>
      rw [← List.cons_append, ← List.append_assoc] at he
      exact absurd hr (hopen before e after (List.append_inj_left' he rfl))
  have hreaches : (∃ before e, heard ++ [d] = before ++ [e] ∧ Reaches q.limit q.deduplicate before e) ↔
      Reaches q.limit q.deduplicate heard d := by
    refine ⟨fun ⟨before, e, he, hr⟩ => ?_, fun hr => ⟨heard, d, rfl, hr⟩⟩
    obtain ⟨hbefore, hlast⟩ := List.append_inj' he rfl
    rwa [hbefore, List.singleton_inj.mp hlast]
  by_cases ha : q.admits d
  · have hnew : ¬Repeats q.deduplicate heard d := ((admits_iff h.recorded).mp ha).2
    rw [add_of_admits ha]
    refine ⟨?_, ?_, ?_, hlast, fun _ => rfl⟩
    · rw [distinct_concat hnew, ← h.recorded]
    · rw [List.append_nil, errors_concat, hcount]
    · rw [hreaches, Reaches, errors_concat, ← hcount]
      simp [hnew, and_assoc]
  · have hold : Repeats q.deduplicate heard d := by
      by_contra hnew
      exact ha ((admits_iff h.recorded).mpr ⟨hq, hnew⟩)
    rw [add_of_not_admits ha]
    refine ⟨?_, ?_, ?_, hlast, fun _ => rfl⟩
    · rw [distinct_concat_of_repeats hold, ← h.recorded]
    · rw [List.append_nil, errors_concat, hcount]
    · rw [hreaches, Reaches]
      simp [hold, hq]

/-- How many errors are recorded. -/
structure Bounded (q : DiagnosticQueue) : Prop where
  counted : errors q.recorded ≤ q.errorCount
  le_limit : 0 < q.limit → errors q.recorded ≤ q.limit
  lt_limit : 0 < q.limit → q.limitReached = false → errors q.recorded < q.limit

theorem Bounded.add (h : Bounded q) (d : Diagnostic) : Bounded (q.add d) := by
  obtain ⟨hcounted, hle, hlt⟩ := h
  by_cases ha : q.admits d
  · have hq : q.limitReached = false := by
      rw [admits, Bool.and_eq_true, Bool.not_eq_true'] at ha
      exact ha.1
    rw [add_of_admits ha]
    -- an error is recorded while fewer than `limit` are, and it closes the queue if it is the last of them
    cases hd : d.isError with
    | false =>
      refine ⟨?_, fun hl => ?_, fun hl _ => ?_⟩ <;> simp only [errors_concat, hd]
      · simpa using hcounted
      · simpa using hle hl
      · simpa using hlt hl hq
    | true =>
      refine ⟨?_, fun hl => ?_, fun hl hf => ?_⟩ <;> simp only [errors_concat, hd, if_true]
      · exact Nat.succ_le_succ hcounted
      · exact hlt hl hq
      · have hcount : ¬q.limit ≤ q.errorCount + 1 := by simpa [hl] using hf
        omega
  · rw [add_of_not_admits ha]
    exact ⟨Nat.le_add_right_of_le hcounted, hle, hlt⟩

/-! ### Runs -/

/-- The queue after the diagnostics were added, from the first to the last. -/
def addAll (q : DiagnosticQueue) (ds : List Diagnostic) : DiagnosticQueue := ds.foldl add q

theorem addAll_concat (q : DiagnosticQueue) (ds : List Diagnostic) (d : Diagnostic) :
    q.addAll (ds ++ [d]) = (q.addAll ds).add d := by
  rw [addAll, List.foldl_append]
  rfl

theorem add_settings (q : DiagnosticQueue) (d : Diagnostic) :
    (q.add d).limit = q.limit ∧ (q.add d).deduplicate = q.deduplicate := by
  by_cases h : q.admits d
  · rw [add_of_admits h]
    exact ⟨rfl, rfl⟩
  · rw [add_of_not_admits h]
    exact ⟨rfl, rfl⟩

theorem addAll_settings (q : DiagnosticQueue) (ds : List Diagnostic) :
    (q.addAll ds).limit = q.limit ∧ (q.addAll ds).deduplicate = q.deduplicate := by
  induction ds using List.reverseRecOn with
  | nil => exact ⟨rfl, rfl⟩
  | append_singleton ds d ih =>
    rw [addAll_concat, (add_settings _ d).1, (add_settings _ d).2]
    exact ih

theorem exists_tracks (limit : Nat) (deduplicate : Bool) (ds : List Diagnostic) :
    ∃ heard lost, ds = heard ++ lost ∧ Tracks (addAll { limit, deduplicate } ds) heard lost := by
  induction ds using List.reverseRecOn with
  | nil => exact ⟨[], [], rfl, tracks_empty limit deduplicate⟩
  | append_singleton ds d ih =>
    obtain ⟨heard, lost, rfl, h⟩ := ih
    rw [addAll_concat]
    cases hq : (addAll { limit, deduplicate } (heard ++ lost)).limitReached with
    | true => exact ⟨heard, lost ++ [d], List.append_assoc .., h.add_lost hq d⟩
    | false => exact ⟨heard ++ [d], [], by rw [h.lost hq]; simp, h.add_heard hq d⟩

theorem bounded_addAll (limit : Nat) (deduplicate : Bool) (ds : List Diagnostic) :
    Bounded (addAll { limit, deduplicate } ds) := by
  induction ds using List.reverseRecOn with
  | nil => exact ⟨Nat.le_refl 0, fun _ => Nat.zero_le limit, fun hl _ => hl⟩
  | append_singleton ds d ih =>
    rw [addAll_concat]
    exact ih.add d

/-- The limit is reached with `d`, which is the first to reach it, and `lost` comes after that. -/
structure CutAt (limit : Nat) (deduplicate : Bool) (ds before : List Diagnostic) (d : Diagnostic)
    (lost : List Diagnostic) : Prop where
  eq : ds = before ++ d :: lost
  reaches : Reaches limit deduplicate before d
  first : ∀ earlier e later, before = earlier ++ e :: later → ¬Reaches limit deduplicate earlier e

/-- What is recorded of any diagnostics has no repetitions if those are dropped, and no more errors than the
limit allows. The report has it in the order of the locations. If the limit is reached, what came up to then
is recorded, whatever comes later is lost, and the report ends with the last word; if it is not reached,
everything is recorded and there is no last word. -/
theorem report_addAll (limit : Nat) (deduplicate : Bool) (ds : List Diagnostic) :
    let q := addAll { limit, deduplicate } ds
    ∃ sorted, SortsByLocation q.recorded sorted ∧ (deduplicate → q.recorded.Nodup) ∧
      (0 < limit → errors q.recorded ≤ limit) ∧
      ((∃ before d lost, CutAt limit deduplicate ds before d lost ∧
          q.recorded = distinct deduplicate (before ++ [d]) ∧ q.report = sorted ++ [tooManyErrors limit]) ∨
        ((¬∃ before d lost, CutAt limit deduplicate ds before d lost) ∧
          q.recorded = distinct deduplicate ds ∧ q.report = sorted)) := by
  intro q
  obtain ⟨hlimit, hdedup⟩ : q.limit = limit ∧ q.deduplicate = deduplicate :=
    addAll_settings { limit, deduplicate } ds
  obtain ⟨heard, lost, hds, h⟩ : ∃ heard lost, ds = heard ++ lost ∧ Tracks q heard lost :=
    exists_tracks limit deduplicate ds
  obtain ⟨hrecorded, -, hreached, huntil, hlost⟩ := h
  rw [hlimit, hdedup] at hreached
  rw [hlimit, hdedup] at huntil
  rw [hdedup] at hrecorded
  refine ⟨_, sortsByLocation_sort q.recorded, fun hd => ?_, fun hl => ?_, ?_⟩
  · rw [hrecorded, hd]
    exact nodup_distinct heard
  · have hle := (bounded_addAll limit deduplicate ds).le_limit
    rw [(addAll_settings _ ds).1] at hle
    exact hle hl
  cases hq : q.limitReached with
  | true =>
    obtain ⟨before, d, rfl, hr⟩ := hreached.mp hq
    refine .inl ⟨before, d, lost, ⟨by rw [hds]; simp, hr, fun earlier e later he hearly => ?_⟩, hrecorded, ?_⟩
    · have hnil := huntil earlier e (later ++ [d]) (by rw [he]; simp) hearly
      simp at hnil
    · rw [report, hq, hlimit]
      rfl
  | false =>
    have hall : ds = heard := by rw [hds, hlost hq, List.append_nil]
    refine .inr ⟨fun ⟨before, d, after, hcut⟩ => ?_, by rw [hrecorded, hall], ?_⟩
    · have hsplit : heard = before ++ d :: after := hall ▸ hcut.eq
      have hnil : after = [] := huntil before d after hsplit hcut.reaches
      have hreached' : q.limitReached := hreached.mpr ⟨before, d, hnil ▸ hsplit, hcut.reaches⟩
      rw [hq] at hreached'
      cases hreached'
    · rw [report, hq]
      exact List.append_nil _

/-- With a limit of one error, a single error is followed by the last word though nothing was lost, and a
warning that comes after it is lost. -/
theorem exists_report_untruthful : ∃ e w : Diagnostic, e.isError ∧ w.severity = .warning ∧
    (addAll { limit := 1 } [e]).recorded = [e] ∧
    (addAll { limit := 1 } [e]).report = [e, tooManyErrors 1] ∧
    (addAll { limit := 1 } [e, w]).report = [e, tooManyErrors 1] :=
  ⟨.error .nestedRewrite "", .warning .noFixpoint "", rfl, rfl, rfl, rfl, rfl⟩

end RuleCompiler.DiagnosticQueue
