/-!
Half-open ranges of offsets. A `Span` always has its ends in order; a pair of numbers that does not
form one is reported as a `BadSpan`.
-/

namespace Glass

structure Span where
  start : Nat
  stop : Nat
  start_le_stop : start ≤ stop := by omega
  deriving DecidableEq, Repr

/-- Two ends that enclose nothing: the first is negative or lies behind the second. -/
structure BadSpan where
  start : Int
  stop : Int
  deriving DecidableEq, Repr

def BadSpan.message (b : BadSpan) : String :=
  s!"invalid span {b.start}..{b.stop}"

def Span.of (start stop : Int) : Except BadSpan Span :=
  if h : 0 ≤ start ∧ start ≤ stop then
    .ok { start := start.toNat, stop := stop.toNat }
  else .error ⟨start, stop⟩

def Span.length (s : Span) : Nat := s.stop - s.start

/-- The part of `text` under the span; what lies past the end of `text` is not there. -/
def Span.slice (s : Span) (text : List Char) : List Char :=
  (text.drop s.start).take s.length

/-- The smallest span that holds both. -/
def Span.cover (s t : Span) : Span where
  start := min s.start t.start
  stop := max s.stop t.stop
  start_le_stop := by
    have := s.start_le_stop
    omega

def Span.render (s : Span) : String := s!"{s.start}..{s.stop}"

end Glass
