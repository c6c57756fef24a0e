import ParseForest.Chart.Basic

/-! # Splits by looking tokens up

Whether a part fits a terminal is told by the token in its place, which can be looked up only if the input
has that place.  So the search for splits, made with such lookups, may have no result. -/

namespace ParseForest.Table

/-- Whether a part of the span `whole` fits a symbol, by looking up the token where it starts. -/
def fits? (table : Table) (tokens : List String) (whole : Span) (known : List String) (symbol : Symbol)
    (part : Span) : Option Bool :=
  match symbol with
  | .terminal text =>
    if part.length = 1 then tokens[part.start]?.map fun token => decide (token = text)
    else some false
  | .nonterminal name =>
    some (if part = whole then name ∈ known else name ∈ (table.cell part).names)

/-- All splits of a span among the symbols, unless a token beyond the input is looked up. -/
def splits? (table : Table) (tokens : List String) (symbols : List Symbol) (span : Span)
    (known : List String) : Option (List (List Nat)) :=
  splitsM (table.fits? tokens span known) symbols span

end ParseForest.Table
