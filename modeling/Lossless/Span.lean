/-! Half-open intervals of natural numbers: byte offsets of a text, positions in a token order,
or lines. -/

namespace Lossless

structure Span where
  start : Nat
  stop : Nat
deriving DecidableEq, Repr, Inhabited

namespace Span

def isEmpty (s : Span) : Bool :=
  s.stop ≤ s.start

def toList (s : Span) : List Nat :=
  List.range' s.start (s.stop - s.start)

/-- The other span lies inside this one. -/
def covers (s t : Span) : Bool :=
  s.start ≤ t.start && t.stop ≤ s.stop

def render (s : Span) : String :=
  toString s.start ++ ".." ++ toString s.stop

end Span

end Lossless
