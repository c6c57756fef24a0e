import ParseForest.Chart.Span
import ParseForest.Grammar.Symbol

/-! # Splitting a span among symbols

How a span divides into one part for each symbol of an alternative.  Every part holds at least
one token and fits its symbol.  A split is the list of boundaries between the parts, the ends
of the span included.

Splits are found by backtracking.  The boundaries chosen so far form a stack: the end of a part is
pushed before the symbols behind it get theirs, and popped before the next end is tried.  Ends are
tried from left to right, so splits come in lexicographic order, the earlier boundary first.  Whether a
part fits is asked in a monad, since the answer may take a look at the input that can fail. -/

namespace ParseForest

/-- A search under way: the boundaries chosen so far, the last one at the end, and the splits found. -/
structure SplitSearch where
  boundaries : List Nat
  found : List (List Nat)
deriving DecidableEq, Repr

namespace SplitSearch

/-- A search for which only the start of the span is settled. -/
def start (position : Nat) : SplitSearch :=
  ⟨[position], []⟩

/-- The search with one more boundary. -/
def push (search : SplitSearch) (boundary : Nat) : SplitSearch :=
  { search with boundaries := search.boundaries ++ [boundary] }

/-- The search without its last boundary. -/
def pop (search : SplitSearch) : SplitSearch :=
  { search with boundaries := search.boundaries.dropLast }

/-- The boundaries chosen are a split. -/
def record (search : SplitSearch) : SplitSearch :=
  { search with found := search.found ++ [search.boundaries] }

/-- The ends that are tried for a part.  The last part has to reach the stop; another one leaves a token
for each of the symbols `behind` it. -/
def ends (start stop behind : Nat) : List Nat :=
  if behind = 0 then [stop] else List.range' (start + 1) (stop - behind - start)

variable {m : Type → Type} [Monad m] (fits : Symbol → Span → m Bool)

/-- Tries one end for the part of a symbol, and goes `deeper` if the part fits. -/
def tryEnd (symbol : Symbol) (start : Nat) (deeper : Nat → SplitSearch → m SplitSearch)
    (search : SplitSearch) (boundary : Nat) : m SplitSearch :=
  if start < boundary then do
    if ← fits symbol ⟨start, boundary⟩ then
      let search ← deeper boundary (search.push boundary)
      return search.pop
    else return search
  else return search

/-- Finds all ways to go on from a position to the stop, with one part for each symbol. -/
def extend (stop : Nat) : List Symbol → Nat → SplitSearch → m SplitSearch
  | [], start, search => return if start = stop then search.record else search
  | symbol :: behind, start, search =>
    (ends start stop behind.length).foldlM (tryEnd fits symbol start (extend stop behind)) search

end SplitSearch

/-- All splits of a span among the symbols, where it may fail to tell whether a part fits. -/
def splitsM {m : Type → Type} [Monad m] (fits : Symbol → Span → m Bool) (symbols : List Symbol)
    (span : Span) : m (List (List Nat)) :=
  if symbols.isEmpty then return []
  else SplitSearch.found <$>
    SplitSearch.extend fits span.stop symbols span.start (.start span.start)

/-- All splits of a span among the symbols. -/
def splits (fits : Symbol → Span → Bool) (symbols : List Symbol) (span : Span) : List (List Nat) :=
  Id.run (splitsM (fun symbol part => pure (fits symbol part)) symbols span)

end ParseForest
