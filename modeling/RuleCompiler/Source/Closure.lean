import RuleCompiler.Diagnostic.Basic
import RuleCompiler.Source.Basic

/-! # Import closures

The modules that a definition's main module reaches by imports, each once and after the modules
it imports, flattened into one. Circular imports, unknown modules and priorities over unknown
tags are reported together, modules before tags. -/

namespace RuleCompiler

/-- Why a definition has no flat form. Locations are those of the sentence to blame. -/
inductive ImportError where
  /-- The names from one module along imports back to it. -/
  | circular (cycle : List String) (location : Option Location)
  | unknownModule (name : String) (location : Option Location)
  | unknownTag (tag : String) (location : Option Location)
deriving Inhabited

def ImportError.diagnostic : ImportError → Diagnostic
  | circular cycle l =>
    (Diagnostic.error .circularImports
      ("Found circularity in module imports: " ++ String.intercalate " < " cycle)).at? l
      "import closes the cycle"
  | unknownModule name l =>
    (Diagnostic.error .unknownModule ("Could not find module: " ++ name)).at? l "imported here"
  | unknownTag tag l =>
    (Diagnostic.error .unknownTag ("Could not find any productions for tag: " ++ tag)).at? l
      "in this priority declaration"

/-- What following imports has come to so far. -/
structure Closure where
  /-- The modules found, imported ones first. -/
  modules : List SourceModule := []
  errors : List ImportError := []

namespace Closure

def contains (c : Closure) (name : String) : Bool := c.modules.any (·.name == name)

def fail (c : Closure) (e : ImportError) : Closure := { c with errors := c.errors ++ [e] }

/-- Add the module `name` and what it imports. `path` holds the modules that led here, and
`importer` is where the last of them stands. -/
def visit (d : SourceDefinition) :
    Nat → List String → Option Location → String → Closure → Closure
  | 0, _, _, _, c => c
  | depth + 1, path, importer, name, c =>
    if c.contains name then c
    else if path.contains name then
      c.fail (.circular (path.dropWhile (· != name) ++ [name]) importer)
    else match d.module? name with
      | none => c.fail (.unknownModule name importer)
      | some m =>
        let c := m.imports.foldl
          (fun c i => visit d depth (path ++ [name]) m.attributes.location i c) c
        { c with modules := c.modules ++ [m] }

/-- Everything that the main module reaches. A path without repetition is no longer than the
list of modules, which bounds the depth. -/
def of (d : SourceDefinition) : Closure := visit d (d.modules.length + 1) [] none d.main {}

end Closure

/-- The sentences of several modules in one. -/
structure FlatModule where
  name : String
  productions : List Production := []
  rules : List SourceRule := []
  configurations : List Configuration := []
  /-- Blocks of labels, the highest priority first. -/
  priorities : List (List String) := []
deriving Inhabited

namespace FlatModule

def production? : Sentence → Option Production
  | .production p => some p
  | _ => none

def rule? : Sentence → Option SourceRule
  | .rule r => some r
  | _ => none

def configuration? : Sentence → Option Configuration
  | .configuration c => some c
  | _ => none

def priority? : Sentence → Option Priority
  | .priority p => some p
  | _ => none

/-- The labels of the productions that carry the tag. -/
def labelsTagged (productions : List Production) (tag : String) : List String :=
  (productions.filter (·.tag == tag)).map (·.label)

/-- The tags of a priority that no production carries, each as often as it is written. -/
def unknownTags (productions : List Production) (p : Priority) : List ImportError :=
  (p.blocks.flatten.filter fun tag => (labelsTagged productions tag).isEmpty).map
    (.unknownTag · p.attributes.location)

/-- The sentences of the modules in order, with the tags of priorities resolved. -/
def ofModules (name : String) (modules : List SourceModule) :
    Except (List ImportError) FlatModule :=
  let sentences := modules.flatMap (·.sentences)
  let productions := sentences.filterMap production?
  let priorities := sentences.filterMap priority?
  match priorities.flatMap (unknownTags productions) with
  | [] => .ok {
      name, productions
      rules := sentences.filterMap rule?
      configurations := sentences.filterMap configuration?
      priorities := priorities.flatMap fun p =>
        p.blocks.map (·.flatMap (labelsTagged productions)) }
  | errors => .error errors

end FlatModule

/-- The flat form of a definition. -/
def SourceDefinition.flatten (d : SourceDefinition) : Except (List ImportError) FlatModule :=
  match Closure.of d with
  | ⟨modules, []⟩ => FlatModule.ofModules d.main modules
  | ⟨_, errors⟩ => .error errors

end RuleCompiler
