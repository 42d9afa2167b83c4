/-! # Source locations -/

namespace RuleCompiler

/-- A range of positions in a source text. -/
structure Span where
  start : Nat
  stop : Nat
deriving DecidableEq, Inhabited

namespace Span

/-- The span of generated sentences. -/
def dummy : Span := ⟨0, 0⟩

def isDummy (s : Span) : Bool := s == dummy

/-- The smallest span that covers both. -/
def merge (s t : Span) : Span := ⟨min s.start t.start, max s.stop t.stop⟩

end Span

/-- A span in a named source. -/
structure Location where
  source : String
  span : Span
deriving DecidableEq, Inhabited

def Location.render (l : Location) : String := s!"{l.source}:{l.span.start}..{l.span.stop}"

end RuleCompiler
