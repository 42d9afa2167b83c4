import RuleCompiler.Proofs.Closure
import RuleCompiler.Proofs.Session
import RuleCompiler.Compilation

/-! # Flat definitions

A definition has a flat form unless a module is missing, modules import each other circularly, or a priority names
a tag that no production carries. The flat form holds the sentences of every module that imports lead to, once, after
those of the modules that it imports. A definition that has none is reported, for each cause that there is. -/

namespace RuleCompiler

open Relation (ReflTransGen TransGen)
open SourceDefinition (Imports Reaches Uses IsComplete IsAcyclic HasTag NamesTag IsImportOrder)

/-! ### The whole closure -/

namespace Closure
variable {d : SourceDefinition} {m : SourceModule} {a b name : String}

theorem not_reports (hm : d.module? name = some m) : ¬ (of d).Reports name := by
  rintro ⟨l, hl⟩
  have hnone := ((visited_of d).fits.errors _ hl).2
  rw [hm] at hnone
  cases hnone

/-- The search finds every name that imports lead to, or reports it. -/
theorem mem_names_or_reports (h : d.Reaches name) : name ∈ (of d).names ∨ (of d).Reports name := by
  have hfound {n : String} (hn : (of d).Settles [] n) : n ∈ (of d).names ∨ (of d).Reports n :=
    hn.imp id fun hn => hn.resolve_left List.not_mem_nil
  induction h with
  | refl => exact hfound (visited_of d).settles
  | tail _ hstep ih =>
    obtain ⟨m, hm, hi⟩ := hstep
    have hnames := ih.resolve_right (not_reports hm)
    obtain ⟨m', hm', rfl⟩ := List.mem_map.mp hnames
    have huses := (visited_of d).fits.used m' hm'
    obtain rfl := Option.some.inj (huses.found.symm.trans hm)
    exact hfound ((visited_of d).fits.settled m' hm' _ hi)

/-- The modules found are those that imports lead to. -/
theorem mem_modules_iff : m ∈ (of d).modules ↔ d.Uses m := by
  refine ⟨(visited_of d).fits.used m, fun h => ?_⟩
  have hnames := (mem_names_or_reports h.reached).resolve_right (not_reports h.found)
  obtain ⟨m', hm', hname⟩ := List.mem_map.mp hnames
  exact ((visited_of d).fits.used m' hm').eq_of_name h hname ▸ hm'

theorem isComplete_iff : d.IsComplete ↔ ∀ name, ¬ (of d).Reports name := by
  constructor
  · rintro h name ⟨l, hl⟩
    obtain ⟨m, hm⟩ := h name ((visited_of d).fits.errors _ hl).1
    exact not_reports hm ⟨l, hl⟩
  · intro h name hname
    obtain ⟨m, hm, rfl⟩ := List.mem_map.mp ((mem_names_or_reports hname).resolve_right (h name))
    exact ⟨m, ((visited_of d).fits.used m hm).found⟩

section
variable (hcycle : ¬ (of d).ReportsCycle)
include hcycle

/-- Without a cycle, what a module imports comes before it, if it exists. -/
theorem mem_before {before after : List SourceModule} (hcut : (of d).modules = before ++ m :: after)
    (hi : name ∈ m.imports) {n : SourceModule} (hn : d.module? name = some n) : name ∈ before.map (·.name) := by
  rcases (visited_of d).fits.first before m after hcut name hi with h | h | h
  · exact h
  · exact absurd h (not_reports hn)
  · exact absurd h hcycle

/-- Without a cycle, whatever imports of a module lead to comes before it. -/
theorem mem_before_of_transGen {before after : List SourceModule} (hcut : (of d).modules = before ++ m :: after)
    {n : SourceModule} (hn : d.module? b = some n) (h : TransGen d.Imports m.name b) : b ∈ before.map (·.name) := by
  have hm : d.Uses m := mem_modules_iff.mp (hcut ▸ List.mem_append_right _ List.mem_cons_self)
  induction h generalizing n with
  | single hstep =>
    obtain ⟨m', hm', hi⟩ := hstep
    obtain rfl := Option.some.inj (hm.found.symm.trans hm')
    exact mem_before hcycle hcut hi hn
  | tail _ hstep ih =>
    obtain ⟨m', hm', hi⟩ := hstep
    obtain ⟨a, ha, rfl⟩ := List.mem_map.mp (ih hm')
    obtain ⟨front, back, rfl⟩ := List.append_of_mem ha
    rw [List.append_assoc, List.cons_append] at hcut
    have hused : d.Uses a := mem_modules_iff.mp (hcut ▸ List.mem_append_right _ List.mem_cons_self)
    obtain rfl := Option.some.inj (hused.found.symm.trans hm')
    rw [List.map_append]
    exact List.mem_append_left _ (mem_before hcycle hcut hi hn)

end

/-- A cycle is reported if there is one. -/
theorem reportsCycle_iff : (of d).ReportsCycle ↔ ¬ d.IsAcyclic := by
  constructor
  · rintro ⟨cycle, l, h⟩
    exact ((visited_of d).fits.errors _ h).not_isAcyclic
  · refine fun hcyclic => by_contra fun hcycle => hcyclic fun name hname hloop => ?_
    obtain ⟨_, ⟨m, hm, -⟩, -⟩ := TransGen.head'_iff.mp hloop
    have huses := Uses.of_module? hname hm
    obtain rfl := SourceDefinition.name_of_module? hm
    obtain ⟨before, after, hcut⟩ := List.append_of_mem (mem_modules_iff.mpr huses)
    have hbefore := mem_before_of_transGen hcycle hcut hm hloop
    have hnodup := (visited_of d).fits.nodup
    rw [names, hcut, List.map_append, List.map_cons] at hnodup
    exact (List.nodup_append.mp hnodup).2.2 _ hbefore _ List.mem_cons_self rfl

theorem errors_eq_nil_iff : (of d).errors = [] ↔ d.IsComplete ∧ d.IsAcyclic := by
  have hacyclic : d.IsAcyclic ↔ ¬ (of d).ReportsCycle := by rw [reportsCycle_iff, not_not]
  rw [isComplete_iff, hacyclic]
  constructor
  · intro h
    constructor
    · rintro name ⟨l, hl⟩
      rw [h] at hl
      cases hl
    · rintro ⟨cycle, l, hl⟩
      rw [h] at hl
      cases hl
  · rintro ⟨hreports, hcycle⟩
    refine List.eq_nil_iff_forall_not_mem.mpr fun e he => ?_
    cases e with
    | circular cycle l => exact hcycle ⟨cycle, l, he⟩
    | unknownModule name l => exact hreports name ⟨l, he⟩
    | unknownTag tag l => exact (visited_of d).fits.noTags tag l he

/-- What the search finds is sorted if it reports nothing. -/
theorem isImportOrder_of (h : (of d).errors = []) : d.IsImportOrder (of d).modules where
  nodup := (visited_of d).fits.nodup
  mem_iff _ := mem_modules_iff
  imports before m after hcut i hi := by
    obtain ⟨hcomplete, hacyclic⟩ := errors_eq_nil_iff.mp h
    have hm : d.Uses m := mem_modules_iff.mp (hcut ▸ List.mem_append_right _ List.mem_cons_self)
    obtain ⟨n, hn⟩ := hcomplete i (hm.reaches hi)
    exact mem_before (fun hcycle => reportsCycle_iff.mp hcycle hacyclic) hcut hi hn

end Closure

/-! ### Joining modules -/

namespace FlatModule
variable {d : SourceDefinition} {order : List SourceModule} {name tag : String} {m : FlatModule}

/-- The sentences of the modules one after the other, each kind by itself, with each tag of a priority replaced by
the labels of the productions that carry it. -/
structure Joins (m : FlatModule) (name : String) (order : List SourceModule) : Prop where
  name : m.name = name
  productions : m.productions = (order.flatMap (·.sentences)).filterMap production?
  rules : m.rules = (order.flatMap (·.sentences)).filterMap rule?
  configurations : m.configurations = (order.flatMap (·.sentences)).filterMap configuration?
  priorities : m.priorities = ((order.flatMap (·.sentences)).filterMap priority?).flatMap fun p =>
    p.blocks.map fun block => block.flatMap fun tag => (m.productions.filter (·.tag == tag)).map (·.label)

/-- The priorities of the modules name a tag that no production of them carries. -/
def Lacks (order : List SourceModule) (tag : String) (l : Option Location) : Prop :=
  ∃ p, .priority p ∈ order.flatMap (·.sentences) ∧ tag ∈ p.blocks.flatten ∧ p.attributes.location = l ∧
    ∀ q, .production q ∈ order.flatMap (·.sentences) → q.tag ≠ tag

theorem mem_production? {sentences : List Sentence} {p : Production} :
    p ∈ sentences.filterMap production? ↔ .production p ∈ sentences := by
  rw [List.mem_filterMap]
  constructor
  · rintro ⟨s, hs, hp⟩
    cases s <;> cases hp
    exact hs
  · exact fun h => ⟨_, h, rfl⟩

theorem mem_priority? {sentences : List Sentence} {p : Priority} :
    p ∈ sentences.filterMap priority? ↔ .priority p ∈ sentences := by
  rw [List.mem_filterMap]
  constructor
  · rintro ⟨s, hs, hp⟩
    cases s <;> cases hp
    exact hs
  · exact fun h => ⟨_, h, rfl⟩

theorem isEmpty_labelsTagged {productions : List Production} :
    (labelsTagged productions tag).isEmpty = true ↔ ∀ q ∈ productions, q.tag ≠ tag := by
  simp [labelsTagged]

/-- The reports are about the tags that the modules lack. -/
theorem mem_unknownTags {e : ImportError} :
    e ∈ ((order.flatMap (·.sentences)).filterMap priority?).flatMap
      (unknownTags ((order.flatMap (·.sentences)).filterMap production?)) ↔
      ∃ tag l, Lacks order tag l ∧ e = .unknownTag tag l := by
  simp only [List.mem_flatMap, unknownTags, List.mem_map, List.mem_filter, isEmpty_labelsTagged]
  constructor
  · rintro ⟨p, hp, tag, ⟨htag, hnone⟩, rfl⟩
    exact ⟨tag, _, ⟨p, mem_priority?.mp hp, htag, rfl, fun q hq => hnone q (mem_production?.mpr hq)⟩, rfl⟩
  · rintro ⟨tag, l, ⟨p, hp, htag, rfl, hnone⟩, rfl⟩
    exact ⟨p, mem_priority?.mpr hp, tag, ⟨htag, fun q hq => hnone q (mem_production?.mp hq)⟩, rfl⟩

/-- Modules are joined if they lack no tag. -/
theorem ofModules_cases (name : String) (order : List SourceModule) :
    (∃ m, ofModules name order = .ok m ∧ m.Joins name order ∧ ∀ tag l, ¬ Lacks order tag l) ∨
      ∃ es, ofModules name order = .error es ∧ es ≠ [] ∧
        ∀ e, e ∈ es ↔ ∃ tag l, Lacks order tag l ∧ e = .unknownTag tag l := by
  have hreports (e : ImportError) : _ ↔ ∃ tag l, Lacks order tag l ∧ e = .unknownTag tag l := mem_unknownTags
  rw [ofModules]
  split
  · rename_i hnil
    refine .inl ⟨_, rfl, ⟨rfl, rfl, rfl, rfl, rfl⟩, fun tag l hlacks => ?_⟩
    have hmem := (hreports _).mpr ⟨tag, l, hlacks, rfl⟩
    rw [hnil] at hmem
    cases hmem
  · rename_i hne
    exact .inr ⟨_, rfl, fun h => hne h, hreports⟩

/-- The modules that imports lead to lack the tags that are named and carried nowhere. -/
theorem lacks_iff (h : ∀ m, m ∈ order ↔ d.Uses m) :
    (∃ l, Lacks order tag l) ↔ d.NamesTag tag ∧ ¬ d.HasTag tag := by
  have hmem {s : Sentence} : s ∈ order.flatMap (·.sentences) ↔ ∃ m, d.Uses m ∧ s ∈ m.sentences := by
    simp only [List.mem_flatMap, h]
  simp only [Lacks, hmem]
  constructor
  · rintro ⟨l, p, ⟨m, hm, hp⟩, htag, -, hnone⟩
    refine ⟨⟨m, p, hm, hp, htag⟩, ?_⟩
    rintro ⟨m', q, hm', hq, hcarries⟩
    exact hnone q ⟨m', hm', hq⟩ hcarries
  · rintro ⟨⟨m, p, hm, hp, htag⟩, hnone⟩
    refine ⟨_, p, ⟨m, hm, hp⟩, htag, rfl, ?_⟩
    rintro q ⟨m', hm', hq⟩ hcarries
    exact hnone ⟨m', q, hm', hq, hcarries⟩

end FlatModule

/-! ### Reports -/

section
variable (d : Diagnostic) (l : Option Location) (message : String)

@[simp]
theorem Diagnostic.code_at? : (d.at? l message).code = d.code := by cases l <;> rfl

@[simp]
theorem Diagnostic.isError_at? : (d.at? l message).isError = d.isError := by cases l <;> rfl

end

theorem ImportError.isError_diagnostic (e : ImportError) : e.diagnostic.isError = true := by
  cases e <;> exact Diagnostic.isError_at? _ _ _

theorem ImportError.code_circular (cycle : List String) (l : Option Location) :
    (circular cycle l).diagnostic.code = .circularImports := Diagnostic.code_at? _ _ _

theorem ImportError.code_unknownModule (name : String) (l : Option Location) :
    (unknownModule name l).diagnostic.code = .unknownModule := Diagnostic.code_at? _ _ _

theorem ImportError.code_unknownTag (tag : String) (l : Option Location) :
    (unknownTag tag l).diagnostic.code = .unknownTag := Diagnostic.code_at? _ _ _

namespace DiagnosticQueue
variable {q : DiagnosticQueue} {d e : Diagnostic}

/-- A queue that is not cut off has what is added to it. -/
theorem mem_recorded_add (h : q.limitReached = false) : d ∈ (q.add d).recorded := by
  by_cases hadmits : q.admits d = true
  · rw [add, if_pos hadmits]
    exact List.mem_append_right _ List.mem_cons_self
  · rw [add, if_neg hadmits]
    simp only [admits, h, Bool.not_false, Bool.true_and, Bool.not_eq_true', Bool.not_eq_false, Bool.and_eq_true,
      List.contains_iff_mem] at hadmits
    exact hadmits.2

theorem recorded_subset_add (q : DiagnosticQueue) (d : Diagnostic) : q.recorded ⊆ (q.add d).recorded := by
  rw [add]
  split
  · exact List.subset_append_left _ _
  · exact fun _ h => h

theorem recorded_subset_foldl : ∀ (ds : List Diagnostic) (q : DiagnosticQueue),
    q.recorded ⊆ (ds.foldl add q).recorded
  | [], _ => fun _ h => h
  | d :: ds, q => fun _ h => recorded_subset_foldl ds (q.add d) (recorded_subset_add q d h)

end DiagnosticQueue

namespace SessionM

theorem forM_report (f : ImportError → Diagnostic) : ∀ (es : List ImportError) (s : Session),
    (es.forM fun e => Session.report (f e)) s =
      (.ok (), { s with queue := (es.map f).foldl DiagnosticQueue.add s.queue })
  | [], _ => rfl
  | e :: es, s => by
    have hreport : Session.report (f e) s = (.ok (), { s with queue := s.queue.add (f e) }) := rfl
    show (Session.report (f e) >>= fun _ => es.forM fun e => Session.report (f e)) s = _
    rw [bind_eq hreport, forM_report f es]
    rfl

end SessionM

namespace SourceDefinition
variable {d : SourceDefinition} {es : List ImportError}

/-- The errors that a definition has: all of them are true, and each kind of cause is told of. A tag is only looked
for where every module is found. -/
structure FailsWith (d : SourceDefinition) (es : List ImportError) : Prop where
  isTrue : ∀ e ∈ es, e.IsTrue d
  ne_nil : es ≠ []
  circular : ¬ d.IsAcyclic → ∃ e ∈ es, e.diagnostic.code.text = "E2001"
  unknownModule : ¬ d.IsComplete → ∃ e ∈ es, e.diagnostic.code.text = "E2002"
  unknownTag : d.IsComplete → d.IsAcyclic → ∃ e ∈ es, e.diagnostic.code.text = "E2003"

/-- All errors are reported, and none of them is lost before the error limit. -/
structure Reports (d : SourceDefinition) (es : List ImportError) (s : Session) : Prop where
  lower_eq : d.lower s =
    (.ok none, { s with queue := (es.map (·.diagnostic)).foldl DiagnosticQueue.add s.queue })
  isError : ∀ e ∈ es, e.diagnostic.isError = true
  recorded : s.queue.limitReached = false → ∃ e ∈ es, e.diagnostic ∈ (d.lower s).2.queue.recorded

theorem flatten_of_nil (h : (Closure.of d).errors = []) :
    d.flatten = FlatModule.ofModules d.main (Closure.of d).modules := by
  have hof : Closure.of d = ⟨(Closure.of d).modules, []⟩ := by rw [← h]
  rw [flatten, hof]

theorem flatten_of_ne_nil (h : (Closure.of d).errors ≠ []) : d.flatten = .error (Closure.of d).errors := by
  rw [flatten]
  split
  · rename_i hof
    rw [hof] at h
    exact absurd rfl h
  · rename_i hof
    rw [hof]

theorem failsWith_errors (h : (Closure.of d).errors ≠ []) : d.FailsWith (Closure.of d).errors where
  isTrue := (Closure.visited_of d).fits.errors
  ne_nil := h
  circular hcyclic := by
    obtain ⟨cycle, l, he⟩ := Closure.reportsCycle_iff.mpr hcyclic
    exact ⟨_, he, congrArg Code.text (ImportError.code_circular cycle l)⟩
  unknownModule hmissing := by
    rw [Closure.isComplete_iff, not_forall_not] at hmissing
    obtain ⟨name, l, he⟩ := hmissing
    exact ⟨_, he, congrArg Code.text (ImportError.code_unknownModule name l)⟩
  unknownTag hcomplete hacyclic := absurd (Closure.errors_eq_nil_iff.mpr ⟨hcomplete, hacyclic⟩) h

theorem failsWith_unknownTags (h : (Closure.of d).errors = []) (hne : es ≠ [])
    (hes : ∀ e, e ∈ es ↔ ∃ tag l, FlatModule.Lacks (Closure.of d).modules tag l ∧ e = .unknownTag tag l) :
    d.FailsWith es := by
  have hfound := Closure.errors_eq_nil_iff.mp h
  have hlacks (tag : String) : (∃ l, FlatModule.Lacks (Closure.of d).modules tag l) ↔ d.NamesTag tag ∧ ¬ d.HasTag tag :=
    FlatModule.lacks_iff fun _ => Closure.mem_modules_iff
  refine ⟨fun e he => ?_, hne, fun hcyclic => absurd hfound.2 hcyclic, fun hmissing => absurd hfound.1 hmissing,
    fun _ _ => ?_⟩
  · obtain ⟨tag, l, htag, rfl⟩ := (hes e).mp he
    exact (hlacks tag).mp ⟨l, htag⟩
  · obtain ⟨e, he⟩ := List.exists_mem_of_ne_nil es hne
    obtain ⟨tag, l, -, rfl⟩ := (hes e).mp he
    exact ⟨_, he, congrArg Code.text (ImportError.code_unknownTag tag l)⟩

/-- A definition has a flat form where it is complete, acyclic and has every tag that it names, and errors
elsewhere. -/
theorem flatten_cases (d : SourceDefinition) :
    (∃ m order, d.flatten = .ok m ∧ d.IsImportOrder order ∧ m.Joins d.main order ∧
        d.IsComplete ∧ d.IsAcyclic ∧ ∀ tag, d.NamesTag tag → d.HasTag tag) ∨
      ∃ es, d.flatten = .error es ∧ d.FailsWith es := by
  by_cases hnil : (Closure.of d).errors = []
  · have hfound := Closure.errors_eq_nil_iff.mp hnil
    rcases FlatModule.ofModules_cases d.main (Closure.of d).modules with ⟨m, hm, hjoins, hlacks⟩ | ⟨es, hes, hne, hmem⟩
    · refine .inl ⟨m, _, (flatten_of_nil hnil).trans hm, Closure.isImportOrder_of hnil, hjoins, hfound.1, hfound.2,
        fun tag htag => by_contra fun hnone => ?_⟩
      obtain ⟨l, hl⟩ := (FlatModule.lacks_iff fun m => Closure.mem_modules_iff).mpr ⟨htag, hnone⟩
      exact hlacks tag l hl
    · exact .inr ⟨es, (flatten_of_nil hnil).trans hes, failsWith_unknownTags hnil hne hmem⟩
  · exact .inr ⟨_, flatten_of_ne_nil hnil, failsWith_errors hnil⟩

theorem FailsWith.not_flat (h : d.FailsWith es) (hcomplete : d.IsComplete) (hacyclic : d.IsAcyclic) :
    ∃ tag, d.NamesTag tag ∧ ¬ d.HasTag tag := by
  obtain ⟨e, he, hcode⟩ := h.unknownTag hcomplete hacyclic
  cases e with
  | circular cycle l =>
    rw [ImportError.code_circular] at hcode
    exact absurd hcode (by decide)
  | unknownModule name l =>
    rw [ImportError.code_unknownModule] at hcode
    exact absurd hcode (by decide)
  | unknownTag tag l => exact ⟨tag, h.isTrue _ he⟩

theorem reports_of_flatten (h : d.flatten = .error es) (hne : es ≠ []) (s : Session) : d.Reports es s := by
  have hlower : d.lower s =
      (.ok none, { s with queue := (es.map (·.diagnostic)).foldl DiagnosticQueue.add s.queue }) := by
    rw [lower, h]
    exact SessionM.bind_eq (SessionM.forM_report (·.diagnostic) es s) _
  refine ⟨hlower, fun e _ => e.isError_diagnostic, fun hroom => ?_⟩
  obtain ⟨e, rest, rfl⟩ := List.exists_cons_of_ne_nil hne
  rw [hlower, List.map_cons, List.foldl_cons]
  exact ⟨e, List.mem_cons_self,
    DiagnosticQueue.recorded_subset_foldl _ _ (DiagnosticQueue.mem_recorded_add hroom)⟩

/-- Modules are sorted by their imports. The search ends: going deeper finds nothing more. -/
theorem flatten_sorts (d : SourceDefinition) :
    (∀ depth, d.modules.length < depth → Closure.visit d depth [] none d.main {} = Closure.of d) ∧
      ((∃ m, d.flatten = .ok m) ↔
        d.IsComplete ∧ d.IsAcyclic ∧ ∀ tag, d.NamesTag tag → d.HasTag tag) ∧
      (∀ m, d.flatten = .ok m → ∃ order, d.IsImportOrder order ∧ m.Joins d.main order) ∧
      ∀ es, d.flatten = .error es → d.FailsWith es ∧ ∀ s, d.Reports es s := by
  have hdepth : ∀ depth, d.modules.length < depth → Closure.visit d depth [] none d.main {} = Closure.of d :=
    fun depth h => Closure.visit_eq (Closure.isPath_main d) (by simpa using h) (by simp)
  refine ⟨hdepth, ?_⟩
  rcases flatten_cases d with ⟨m, order, hm, horder, hjoins, hflat⟩ | ⟨es, hes, hfails⟩
  · refine ⟨⟨fun _ => hflat, fun _ => ⟨m, hm⟩⟩, fun m' hm' => ?_, fun es hes => ?_⟩
    · obtain rfl := Except.ok.inj (hm.symm.trans hm')
      exact ⟨order, horder, hjoins⟩
    · cases hm.symm.trans hes
  · refine ⟨⟨fun ⟨m, hm⟩ => ?_, fun ⟨hcomplete, hacyclic, htags⟩ => ?_⟩, fun m hm => ?_, fun es' hes' => ?_⟩
    · cases hes.symm.trans hm
    · obtain ⟨tag, hnamed, hnone⟩ := hfails.not_flat hcomplete hacyclic
      exact absurd (htags tag hnamed) hnone
    · cases hes.symm.trans hm
    · obtain rfl := Except.error.inj (hes.symm.trans hes')
      exact ⟨hfails, reports_of_flatten hes hfails.ne_nil⟩

end SourceDefinition

end RuleCompiler
