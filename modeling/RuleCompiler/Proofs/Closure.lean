import Mathlib.Data.List.Chain
import Mathlib.Data.List.Nodup
import Mathlib.Data.List.Perm.Subperm
import Mathlib.Data.List.TakeWhile
import Mathlib.Logic.Relation
import RuleCompiler.Source.Closure

/-! # Import closures

Imports are followed depth first. A module is filed when everything that it imports has been seen, so
imported modules stand before those that import them, unless an import leads back to a module that is still
being visited: this closes a cycle, and it is the only way in which a cycle shows. The search goes on after
an error, so everything that can be reached is seen and everything that is missing is reported. -/

namespace RuleCompiler

open Relation (ReflTransGen TransGen)

/-! ### The import graph -/

namespace SourceDefinition
variable {d : SourceDefinition} {m : SourceModule} {a b i name : String}

/-- The module of the one name imports the other. -/
def Imports (d : SourceDefinition) (a b : String) : Prop := ∃ m, d.module? a = some m ∧ b ∈ m.imports

/-- Imports lead from the main module to the name. -/
def Reaches (d : SourceDefinition) (name : String) : Prop := ReflTransGen d.Imports d.main name

/-- The module is the one of its name, and imports lead to it. -/
structure Uses (d : SourceDefinition) (m : SourceModule) : Prop where
  reached : d.Reaches m.name
  found : d.module? m.name = some m

/-- Every module that imports lead to exists. -/
def IsComplete (d : SourceDefinition) : Prop := ∀ name, d.Reaches name → ∃ m, d.module? name = some m

/-- No module that imports lead to imports itself, directly or through others. -/
def IsAcyclic (d : SourceDefinition) : Prop := ∀ name, d.Reaches name → ¬ TransGen d.Imports name name

/-- Some production of the definition carries the tag. -/
def HasTag (d : SourceDefinition) (tag : String) : Prop :=
  ∃ m p, d.Uses m ∧ .production p ∈ m.sentences ∧ p.tag = tag

/-- Some priority of the definition names the tag. -/
def NamesTag (d : SourceDefinition) (tag : String) : Prop :=
  ∃ m p, d.Uses m ∧ .priority p ∈ m.sentences ∧ tag ∈ p.blocks.flatten

/-- Each module that imports lead to is listed once, after the modules that it imports. -/
structure IsImportOrder (d : SourceDefinition) (order : List SourceModule) : Prop where
  nodup : (order.map (·.name)).Nodup
  mem_iff : ∀ m, m ∈ order ↔ d.Uses m
  imports : ∀ before m after, order = before ++ m :: after → ∀ i ∈ m.imports, i ∈ before.map (·.name)

theorem name_of_module? (h : d.module? name = some m) : m.name = name := by
  have hname := List.find?_some h
  rwa [beq_iff_eq] at hname

theorem Uses.of_module? (hname : d.Reaches name) (h : d.module? name = some m) : d.Uses m := by
  obtain rfl := name_of_module? h
  exact ⟨hname, h⟩

theorem Uses.imports (h : d.Uses m) (hi : i ∈ m.imports) : d.Imports m.name i := ⟨m, h.found, hi⟩

theorem Uses.reaches (h : d.Uses m) (hi : i ∈ m.imports) : d.Reaches i := h.reached.tail (h.imports hi)

/-- Modules with one name are one module. -/
theorem Uses.eq_of_name {m' : SourceModule} (h : d.Uses m) (h' : d.Uses m') (hname : m.name = m'.name) : m = m' := by
  have hfound := h'.found
  rw [← hname, h.found] at hfound
  exact Option.some.inj hfound

end SourceDefinition

open SourceDefinition (Imports Reaches Uses IsComplete IsAcyclic HasTag NamesTag IsImportOrder)

/-- What the error says is true of the definition. -/
def ImportError.IsTrue (d : SourceDefinition) : ImportError → Prop
  | circular cycle _ => cycle.IsChain d.Imports ∧ 2 ≤ cycle.length ∧ cycle.head? = cycle.getLast? ∧
      ∀ name ∈ cycle, d.Reaches name
  | unknownModule name _ => d.Reaches name ∧ d.module? name = none
  | unknownTag tag _ => d.NamesTag tag ∧ ¬ d.HasTag tag

theorem transGen_of_isChain {R : String → String → Prop} {b : String} :
    ∀ {a : String} {l : List String}, (a :: l).IsChain R → l.getLast? = some b → TransGen R a b
  | a, [], _, h => by cases h
  | a, [c], hchain, h => by
    obtain rfl : c = b := by simpa using h
    exact .single hchain.rel
  | a, c :: e :: l, hchain, h => by
    rw [List.getLast?_cons_cons] at h
    exact .head hchain.rel (transGen_of_isChain hchain.of_cons h)

/-- A cycle that is reported is one. -/
theorem ImportError.IsTrue.not_isAcyclic {d : SourceDefinition} {cycle : List String} {l : Option Location}
    (h : IsTrue d (circular cycle l)) : ¬ d.IsAcyclic := by
  obtain ⟨hchain, hlen, hends, hreached⟩ := h
  match cycle, hlen with
  | a :: b :: rest, _ =>
    rw [List.getLast?_cons_cons, List.head?_cons] at hends
    exact fun hacyclic => hacyclic a (hreached a List.mem_cons_self) (transGen_of_isChain hchain hends.symm)

/-! ### One visit -/

namespace Closure
variable {d : SourceDefinition} {path : List String} {name : String} {c c' c'' : Closure} {m : SourceModule}
  {i : String} {importer : Option Location} {depth : Nat}

/-- The names of the modules found. -/
def names (c : Closure) : List String := c.modules.map (·.name)

/-- The module of the name is reported to be missing. -/
def Reports (c : Closure) (name : String) : Prop := ∃ l, .unknownModule name l ∈ c.errors

/-- Some cycle is reported. -/
def ReportsCycle (c : Closure) : Prop := ∃ cycle l, .circular cycle l ∈ c.errors

/-- The module of the name is found, being visited or missing. -/
def Settles (c : Closure) (path : List String) (name : String) : Prop :=
  name ∈ c.names ∨ name ∈ path ∨ c.Reports name

/-- The module of the name is among those that come first, or an error tells why it is not. -/
def Explains (c : Closure) (first : List String) (name : String) : Prop :=
  name ∈ first ∨ c.Reports name ∨ c.ReportsCycle

/-- Each name imports the next, and the last one the module to be visited; all come from the main module. -/
structure IsPath (d : SourceDefinition) (path : List String) (name : String) : Prop where
  chain : (path ++ [name]).IsChain d.Imports
  reached : ∀ n ∈ path ++ [name], d.Reaches n
  nodup : path.Nodup
  known : ∀ n ∈ path, ∃ m, d.module? n = some m

/-- What the search has come to while the modules of a path are being visited. -/
structure Fits (d : SourceDefinition) (path : List String) (c : Closure) : Prop where
  nodup : c.names.Nodup
  used : ∀ m ∈ c.modules, d.Uses m
  apart : ∀ n ∈ c.names, n ∉ path
  errors : ∀ e ∈ c.errors, e.IsTrue d
  noTags : ∀ tag l, .unknownTag tag l ∉ c.errors
  settled : ∀ m ∈ c.modules, ∀ i ∈ m.imports, c.Settles path i
  first : ∀ before m after, c.modules = before ++ m :: after →
    ∀ i ∈ m.imports, c.Explains (before.map (·.name)) i

/-- Nothing found or reported is lost. -/
structure Extends (c c' : Closure) : Prop where
  names : c.names ⊆ c'.names
  errors : c.errors ⊆ c'.errors

/-- What a visit has come to. -/
structure Visited (d : SourceDefinition) (path : List String) (name : String) (c c' : Closure) : Prop where
  fits : Fits d path c'
  extended : Extends c c'
  settles : c'.Settles path name
  explains : c'.Explains c'.names name

theorem Extends.refl (c : Closure) : Extends c c := ⟨fun _ h => h, fun _ h => h⟩

theorem Extends.trans (h : Extends c c') (h' : Extends c' c'') : Extends c c'' :=
  ⟨fun _ hn => h'.names (h.names hn), fun _ he => h'.errors (h.errors he)⟩

section Extends
variable (h : Extends c c')
include h

theorem Extends.reports (hr : c.Reports name) : c'.Reports name := hr.imp fun _ hl => h.errors hl

theorem Extends.reportsCycle (hr : c.ReportsCycle) : c'.ReportsCycle :=
  hr.imp fun _ hl => hl.imp fun _ hl => h.errors hl

theorem Extends.settles (hs : c.Settles path name) : c'.Settles path name :=
  hs.imp (fun hn => h.names hn) (Or.imp id h.reports)

theorem Extends.explains {first first' : List String} (hfirst : first ⊆ first') (hs : c.Explains first name) :
    c'.Explains first' name :=
  hs.imp (fun hn => hfirst hn) (Or.imp h.reports h.reportsCycle)

end Extends

theorem extends_fail (c : Closure) (e : ImportError) : Extends c (c.fail e) :=
  ⟨fun _ h => h, List.subset_append_left _ _⟩

theorem names_add (c : Closure) (m : SourceModule) :
    names { c with modules := c.modules ++ [m] } = c.names ++ [m.name] := by
  rw [names, List.map_append]
  rfl

theorem extends_add (c : Closure) (m : SourceModule) : Extends c { c with modules := c.modules ++ [m] } :=
  ⟨by rw [names_add]; exact List.subset_append_left _ _, fun _ h => h⟩

theorem name_mem_names_add (c : Closure) (m : SourceModule) :
    m.name ∈ names { c with modules := c.modules ++ [m] } := by
  rw [names_add]
  exact List.mem_append_right _ List.mem_cons_self

/-! ### Paths -/

theorem isPath_main (d : SourceDefinition) : IsPath d [] d.main where
  chain := .singleton d.main
  reached n hn := by
    rw [List.nil_append, List.mem_singleton] at hn
    exact hn ▸ .refl
  nodup := .nil
  known n hn := by cases hn

namespace IsPath
variable (h : IsPath d path name)
include h

theorem reaches : d.Reaches name := h.reached name (by simp)

/-- A path without repetition is no longer than the list of modules. -/
theorem length_le : path.length ≤ d.modules.length := by
  have hsub : path ⊆ d.modules.map (·.name) := by
    intro n hn
    obtain ⟨m, hm⟩ := h.known n hn
    exact List.mem_map.mpr ⟨m, List.mem_of_find?_eq_some hm, SourceDefinition.name_of_module? hm⟩
  have hlen := (List.subperm_of_subset h.nodup hsub).length_le
  rwa [List.length_map] at hlen

theorem next (hm : d.module? name = some m) (hnew : name ∉ path) (hi : i ∈ m.imports) :
    IsPath d (path ++ [name]) i where
  chain := by
    refine List.isChain_append.mpr ⟨h.chain, .singleton i, fun a ha b hb => ?_⟩
    obtain rfl : name = a := by simpa using ha
    obtain rfl : i = b := by simpa using hb
    exact ⟨m, hm, hi⟩
  reached n hn := by
    rcases List.mem_append.mp hn with hn | hn
    · exact h.reached n hn
    · rw [List.mem_singleton.mp hn]
      exact h.reaches.tail ⟨m, hm, hi⟩
  nodup := by
    refine List.nodup_append.mpr ⟨h.nodup, List.nodup_singleton name, fun a ha b hb => ?_⟩
    rintro rfl
    exact hnew (List.mem_singleton.mp hb ▸ ha)
  known n hn := by
    rcases List.mem_append.mp hn with hn | hn
    · exact h.known n hn
    · exact ⟨m, by rw [List.mem_singleton.mp hn, hm]⟩

/-- A module that is met again on its own path closes a cycle. -/
theorem isTrue_circular (hon : name ∈ path) (l : Option Location) :
    ImportError.IsTrue d (.circular (path.dropWhile (· != name) ++ [name]) l) := by
  have hsuffix : path.dropWhile (· != name) ++ [name] <:+ path ++ [name] := by
    obtain ⟨front, hfront⟩ := List.dropWhile_suffix (l := path) (· != name)
    exact ⟨front, by rw [← List.append_assoc, hfront]⟩
  obtain ⟨n, rest, hcut⟩ : ∃ n rest, path.dropWhile (· != name) = n :: rest := by
    refine List.exists_cons_of_ne_nil fun hnil => ?_
    rw [List.dropWhile_eq_nil_iff] at hnil
    simpa using hnil name hon
  have hn : n = name := by
    have hstop := List.head?_dropWhile_not (· != name) path
    rw [hcut] at hstop
    simpa using hstop
  refine ⟨h.chain.suffix hsuffix, ?_, ?_, fun a ha => h.reached a (hsuffix.subset ha)⟩
  · rw [hcut]
    simp
  · rw [List.getLast?_append, hcut, hn]
    rfl

end IsPath

/-! ### Steps of the search -/

theorem contains_iff : c.contains name = true ↔ name ∈ c.names := by
  simp only [contains, names, List.any_eq_true, beq_iff_eq, List.mem_map]

theorem Fits.empty (d : SourceDefinition) : Fits d [] {} where
  nodup := .nil
  used _ h := by cases h
  apart _ h := by cases h
  errors _ h := by cases h
  noTags _ _ h := by cases h
  settled _ h := by cases h
  first before m after h := by
    rw [List.nil_eq_append_iff] at h
    cases h.2

namespace Fits
variable (h : Fits d path c)
include h

/-- A module is visited that is neither found nor being visited. -/
theorem enter (hnew : name ∉ c.names) : Fits d (path ++ [name]) c where
  nodup := h.nodup
  used := h.used
  apart n hn hpath := by
    rcases List.mem_append.mp hpath with hpath | hpath
    · exact h.apart n hn hpath
    · exact hnew (List.mem_singleton.mp hpath ▸ hn)
  errors := h.errors
  noTags := h.noTags
  settled m hm i hi := (h.settled m hm i hi).imp id (Or.imp (List.mem_append_left _) id)
  first := h.first

/-- An error is reported. -/
theorem fail {e : ImportError} (he : e.IsTrue d) (hkind : ∀ tag l, e ≠ .unknownTag tag l) :
    Fits d path (c.fail e) := by
  have hext := extends_fail c e
  refine ⟨h.nodup, h.used, h.apart, fun e' he' => ?_, fun tag l he' => ?_, fun m hm i hi => ?_,
    fun before m after hcut i hi => ?_⟩
  · rcases List.mem_append.mp he' with he' | he'
    · exact h.errors e' he'
    · exact List.mem_singleton.mp he' ▸ he
  · rcases List.mem_append.mp he' with he' | he'
    · exact h.noTags tag l he'
    · exact hkind tag l (List.mem_singleton.mp he').symm
  · exact hext.settles (h.settled m hm i hi)
  · exact hext.explains (List.Subset.refl _) (h.first before m after hcut i hi)

end Fits

/-- A module is found once its imports are settled. -/
theorem Fits.leave (h : Fits d (path ++ [m.name]) c) (hm : d.Uses m) (hpath : m.name ∉ path)
    (hsettled : ∀ i ∈ m.imports, c.Settles (path ++ [m.name]) i)
    (hfirst : ∀ i ∈ m.imports, c.Explains c.names i) :
    Fits d path { c with modules := c.modules ++ [m] } := by
  have hext := extends_add c m
  -- what is settled by being visited now is found
  have hfound {i : String} (hi : c.Settles (path ++ [m.name]) i) :
      Settles { c with modules := c.modules ++ [m] } path i := by
    rcases hext.settles hi with hi | hi | hi
    · exact .inl hi
    · rcases List.mem_append.mp hi with hi | hi
      · exact .inr (.inl hi)
      · refine .inl ?_
        rw [names_add]
        exact List.mem_append_right _ hi
    · exact .inr (.inr hi)
  refine ⟨?_, fun n hn => ?_, fun n hn => ?_, h.errors, h.noTags, fun n hn i hi => ?_,
    fun before n after hcut i hi => ?_⟩
  · rw [names_add]
    refine List.nodup_append.mpr ⟨h.nodup, List.nodup_singleton _, fun a ha b hb => ?_⟩
    rintro rfl
    exact h.apart a ha (List.mem_append_right _ hb)
  · rcases List.mem_append.mp hn with hn | hn
    · exact h.used n hn
    · exact List.mem_singleton.mp hn ▸ hm
  · rw [names_add] at hn
    rcases List.mem_append.mp hn with hn | hn
    · exact fun hp => h.apart n hn (List.mem_append_left _ hp)
    · exact List.mem_singleton.mp hn ▸ hpath
  · rcases List.mem_append.mp hn with hn | hn
    · exact hfound (h.settled n hn i hi)
    · obtain rfl := List.mem_singleton.mp hn
      exact hfound (hsettled i hi)
  · rcases List.eq_nil_or_concat after with rfl | ⟨after, l, rfl⟩
    · obtain ⟨rfl, hlast⟩ := List.append_inj' hcut rfl
      obtain rfl : m = n := by simpa using hlast
      exact hext.explains (List.Subset.refl _) (hfirst i hi)
    · rw [List.concat_eq_append, ← List.cons_append, ← List.append_assoc] at hcut
      obtain ⟨hcut, -⟩ := List.append_inj' hcut rfl
      exact hext.explains (List.Subset.refl _) (h.first before n after hcut i hi)

/-- Visits one after the other. -/
theorem visited_foldl {visitOne : Closure → String → Closure} :
    ∀ (l : List String) {c : Closure}, (∀ i ∈ l, ∀ c, Fits d path c → Visited d path i c (visitOne c i)) →
      Fits d path c → Fits d path (l.foldl visitOne c) ∧ Extends c (l.foldl visitOne c) ∧
        ∀ i ∈ l, (l.foldl visitOne c).Settles path i ∧
          (l.foldl visitOne c).Explains (l.foldl visitOne c).names i
  | [], c, _, hc => ⟨hc, .refl c, List.forall_mem_nil _⟩
  | i :: l, c, hvisit, hc => by
    obtain ⟨hvisitOne, hvisits⟩ := List.forall_mem_cons.mp hvisit
    have hi := hvisitOne c hc
    obtain ⟨hfits, hext, hl⟩ := visited_foldl l hvisits hi.fits
    rw [List.foldl_cons]
    refine ⟨hfits, hi.extended.trans hext, List.forall_mem_cons.mpr ⟨⟨?_, ?_⟩, hl⟩⟩
    · exact hext.settles hi.settles
    · exact hext.explains hext.names hi.explains

/-- A visit that goes deep enough finds the module, or tells why it does not. -/
theorem visited_visit : ∀ {depth : Nat} {path : List String} {importer : Option Location} {name : String}
    {c : Closure}, IsPath d path name → d.modules.length < path.length + depth → Fits d path c →
      Visited d path name c (visit d depth path importer name c)
  | 0, path, importer, name, c, hp, hdepth, hc => by
    have hlen := hp.length_le
    omega
  | depth + 1, path, importer, name, c, hp, hdepth, hc => by
    rw [visit]
    split
    · rename_i hfound
      rw [contains_iff] at hfound
      exact ⟨hc, .refl c, .inl hfound, .inl hfound⟩
    rename_i hnew
    rw [contains_iff] at hnew
    split
    · rename_i hon
      have hon := List.elem_iff.mp hon
      have hreports : (c.fail (.circular (path.dropWhile (· != name) ++ [name]) importer)).ReportsCycle :=
        ⟨_, importer, List.mem_append_right _ List.mem_cons_self⟩
      exact ⟨hc.fail (hp.isTrue_circular hon importer) (by simp), extends_fail c _, .inr (.inl hon),
        .inr (.inr hreports)⟩
    rename_i hon
    have hon : name ∉ path := fun h => hon (List.elem_iff.mpr h)
    split
    · rename_i hnone
      have hreports : (c.fail (.unknownModule name importer)).Reports name :=
        ⟨importer, List.mem_append_right _ List.mem_cons_self⟩
      exact ⟨hc.fail ⟨hp.reaches, hnone⟩ (by simp), extends_fail c _, .inr (.inr hreports), .inr (.inl hreports)⟩
    · rename_i m hm
      have huses := Uses.of_module? hp.reaches hm
      obtain rfl := SourceDefinition.name_of_module? hm
      have hvisit : ∀ i ∈ m.imports, ∀ c, Fits d (path ++ [m.name]) c →
          Visited d (path ++ [m.name]) i c (visit d depth (path ++ [m.name]) m.attributes.location i c) := by
        intro i hi c hc
        refine visited_visit (hp.next hm hon hi) ?_ hc
        rw [List.length_append, List.length_singleton]
        omega
      obtain ⟨hfits, hext, himports⟩ := visited_foldl m.imports hvisit (hc.enter hnew)
      have hadded := extends_add
        (m.imports.foldl (fun c i => visit d depth (path ++ [m.name]) m.attributes.location i c) c) m
      have hname := name_mem_names_add
        (m.imports.foldl (fun c i => visit d depth (path ++ [m.name]) m.attributes.location i c) c) m
      exact ⟨hfits.leave huses hon (fun i hi => (himports i hi).1) fun i hi => (himports i hi).2,
        hext.trans hadded, .inl hname, .inl hname⟩

/-- The search that goes deep enough. -/
theorem visited_of (d : SourceDefinition) : Visited d [] d.main {} (of d) :=
  visited_visit (isPath_main d) (by simp) (.empty d)

/-- Going deeper than paths without repetition can lead finds nothing more. -/
theorem visit_eq : ∀ {depth depth' : Nat} {path : List String} {importer : Option Location} {name : String}
    {c : Closure}, IsPath d path name → d.modules.length < path.length + depth →
      d.modules.length < path.length + depth' → visit d depth path importer name c = visit d depth' path importer name c
  | 0, depth', path, _, name, c, hp, hdepth, _ => by
    have hlen := hp.length_le
    omega
  | depth + 1, 0, path, _, name, c, hp, _, hdepth => by
    have hlen := hp.length_le
    omega
  | depth + 1, depth' + 1, path, importer, name, c, hp, hdepth, hdepth' => by
    rw [visit, visit]
    split
    · rfl
    split
    · rfl
    rename_i hon
    have hon : name ∉ path := fun h => hon (List.elem_iff.mpr h)
    split
    · rfl
    · rename_i m hm
      have hfold : m.imports.foldl (fun c i => visit d depth (path ++ [name]) m.attributes.location i c) c =
          m.imports.foldl (fun c i => visit d depth' (path ++ [name]) m.attributes.location i c) c := by
        refine List.foldl_ext _ _ c fun c i hi => visit_eq (hp.next hm hon hi) ?_ ?_ <;>
          rw [List.length_append, List.length_singleton] <;> omega
      rw [hfold]

end Closure

end RuleCompiler
