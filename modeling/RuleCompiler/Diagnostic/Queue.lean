import RuleCompiler.Diagnostic.Basic
import RuleCompiler.SortedList

/-! # The diagnostic queue

Diagnostics are recorded as they come, without repeating one, until the error limit is reached,
and handed over sorted by location. Every error is counted, recorded or not. -/

namespace RuleCompiler

structure DiagnosticQueue where
  /-- The number of errors after which nothing more is recorded; zero for no limit. -/
  limit : Nat := 20
  /-- Whether a diagnostic equal to a recorded one is dropped. -/
  deduplicate : Bool := true
  recorded : List Diagnostic := []
  errorCount : Nat := 0
  limitReached : Bool := false
deriving Inhabited

namespace DiagnosticQueue

/-- Whether an added diagnostic is recorded. -/
def admits (q : DiagnosticQueue) (d : Diagnostic) : Bool :=
  !q.limitReached && !(q.deduplicate && q.recorded.contains d)

/-- Count an error, then record the diagnostic if the queue admits it. -/
def add (q : DiagnosticQueue) (d : Diagnostic) : DiagnosticQueue :=
  let errorCount := if d.isError then q.errorCount + 1 else q.errorCount
  if q.admits d then
    { q with
      recorded := q.recorded ++ [d]
      errorCount
      limitReached := d.isError && 0 < q.limit && q.limit ≤ errorCount }
  else { q with errorCount }

def hasErrors (q : DiagnosticQueue) : Bool := 0 < q.errorCount

/-- By source, then start; diagnostics without a location come last. -/
def compareLocations (a b : Diagnostic) : Ordering :=
  match a.primary?, b.primary? with
  | some l, some m => (compare l.source m.source).then (compare l.span.start m.span.start)
  | some _, none => .lt
  | none, some _ => .gt
  | none, none => .eq

/-- The diagnostic that ends a report cut short by the error limit. -/
def tooManyErrors (limit : Nat) : Diagnostic :=
  (Diagnostic.error .tooManyErrors s!"aborting after {limit} errors").withNote
    "raise the error limit to see every error"

/-- What is recorded, sorted, with a last word if the limit was reached. -/
def report (q : DiagnosticQueue) : List Diagnostic :=
  SortedList.sort compareLocations q.recorded ++
    if q.limitReached then [tooManyErrors q.limit] else []

/-- The queue after its diagnostics were handed over; errors stay counted. -/
def flushed (q : DiagnosticQueue) : DiagnosticQueue :=
  { q with recorded := [], limitReached := false }

end DiagnosticQueue

end RuleCompiler
