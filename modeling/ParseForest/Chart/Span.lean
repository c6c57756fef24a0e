/-! # Spans

A stretch of the input, from one position up to another, written `[start, stop)`. -/

namespace ParseForest

/-- The tokens from position `start` up to position `stop`. -/
structure Span where
  start : Nat
  stop : Nat
deriving DecidableEq, Repr

namespace Span

/-- The number of tokens. -/
def length (span : Span) : Nat :=
  span.stop - span.start

/-- Whether the span ends where it starts. -/
def isEmpty (span : Span) : Bool :=
  span.start = span.stop

/-- The written form. -/
def render (span : Span) : String :=
  "[" ++ toString span.start ++ ", " ++ toString span.stop ++ ")"

end Span

end ParseForest
