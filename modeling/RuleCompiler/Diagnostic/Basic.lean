import RuleCompiler.Location

/-! # Diagnostics

Every diagnostic has a code. Codes of errors start with `E`, codes of warnings with `W`; the first
digit tells the phase. -/

namespace RuleCompiler

inductive Code where
  | noRewrite
  | nestedRewrite
  | rewriteInConfiguration
  | rewriteInCondition
  | rewriteUnderFunction
  | circularImports
  | unknownModule
  | unknownTag
  | endlessMacro
  | internal
  | tooManyErrors
  | noFixpoint
  | outOfFuel
deriving DecidableEq, Inhabited

namespace Code

def text : Code → String
  | noRewrite => "E1001"
  | nestedRewrite => "E1002"
  | rewriteInConfiguration => "E1003"
  | rewriteInCondition => "E1004"
  | rewriteUnderFunction => "E1005"
  | circularImports => "E2001"
  | unknownModule => "E2002"
  | unknownTag => "E2003"
  | endlessMacro => "E3001"
  | internal => "E9001"
  | tooManyErrors => "E9002"
  | noFixpoint => "W4001"
  | outOfFuel => "W4002"

def all : List Code :=
  [noRewrite, nestedRewrite, rewriteInConfiguration, rewriteInCondition, rewriteUnderFunction,
    circularImports, unknownModule, unknownTag, endlessMacro, internal, tooManyErrors, noFixpoint,
    outOfFuel]

def ofText? (s : String) : Option Code := all.find? (·.text == s)

def description : Code → String
  | noRewrite => "rules must have at least one rewrite"
  | nestedRewrite => "rewrites are not allowed to be nested"
  | rewriteInConfiguration => "rewrites are not allowed in configurations"
  | rewriteInCondition => "rewrites are not allowed in side conditions"
  | rewriteUnderFunction => "rewrites are not allowed under functions"
  | circularImports => "modules import each other circularly"
  | unknownModule => "imported module could not be found"
  | unknownTag => "no production carries the referenced tag"
  | endlessMacro => "macro expansion does not terminate"
  | internal => "internal compiler error"
  | tooManyErrors => "too many errors"
  | noFixpoint => "function rules did not reach a fixpoint"
  | outOfFuel => "evaluation stopped after exhausting its fuel"

/-- Errors in the placement of rewrites. -/
def isRewriteError : Code → Bool
  | noRewrite | nestedRewrite | rewriteInConfiguration | rewriteInCondition
  | rewriteUnderFunction => true
  | _ => false

def isWarning : Code → Bool
  | noFixpoint | outOfFuel => true
  | _ => false

theorem ofText?_text (c : Code) : ofText? c.text = some c := by cases c <;> decide

end Code

/-! ### Severities and labels -/

inductive Severity where
  | error
  | warning
  | note
deriving DecidableEq, Inhabited

def Severity.text : Severity → String
  | error => "error"
  | warning => "warning"
  | note => "note"

/-- A location with what happened there; the primary ones are where the problem is. -/
structure DiagnosticLabel where
  location : Location
  message : String
  isPrimary : Bool := true
deriving DecidableEq, Inhabited

structure Diagnostic where
  code : Code
  severity : Severity
  message : String := ""
  labels : List DiagnosticLabel := []
  notes : List String := []
deriving DecidableEq, Inhabited

namespace Diagnostic

def error (code : Code) (message : String) : Diagnostic :=
  { code, severity := .error, message }

def warning (code : Code) (message : String) : Diagnostic :=
  { code, severity := .warning, message }

def withLabel (d : Diagnostic) (l : DiagnosticLabel) : Diagnostic :=
  { d with labels := d.labels ++ [l] }

/-- A primary label, where the location is known. -/
def at? (d : Diagnostic) (location : Option Location) (message : String) : Diagnostic :=
  match location with
  | some location => d.withLabel { location, message }
  | none => d

def withNote (d : Diagnostic) (note : String) : Diagnostic := { d with notes := d.notes ++ [note] }

/-- The location of the first primary label. -/
def primary? (d : Diagnostic) : Option Location := (d.labels.find? (·.isPrimary)).map (·.location)

def isError (d : Diagnostic) : Bool := d.severity == .error

def render (d : Diagnostic) : String :=
  let label (l : DiagnosticLabel) :=
    "\n  " ++ (if l.isPrimary then "-->" else "   ") ++ " " ++ l.location.render ++ ": " ++
      l.message
  d.severity.text ++ " [" ++ d.code.text ++ "]: " ++ d.message ++
    String.join (d.labels.map label) ++ String.join (d.notes.map ("\n  = note: " ++ ·))

end Diagnostic

end RuleCompiler
