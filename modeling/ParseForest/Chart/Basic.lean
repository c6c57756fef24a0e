import ParseForest.Chart.Split
import ParseForest.Grammar.Basic
import ParseForest.Settle

/-! # The chart

The chart of an input records, for every span, which nonterminals derive exactly its tokens, and
every way each of them starts to do so: an alternative together with a split of the span among
the alternative's symbols.

Spans are filled from short to long.  In an alternative of two or more symbols every part is
shorter than the span, so it is looked up; an alternative that is a single nonterminal covers
the same span again, so the nonterminals of a span are found by sweeps over the rules.  A sweep
adds each nonterminal that is derivable from those known when its rule is visited, the ones
added earlier in the same sweep included, and sweeps go on until one adds none. -/

namespace ParseForest

/-- One way to begin a derivation over a span: the number of an alternative, and the boundaries
between the parts of its symbols. -/
structure Expansion where
  alternative : Nat
  boundaries : List Nat
deriving DecidableEq, Repr

/-- The spans between neighbouring boundaries. -/
def Expansion.spans (expansion : Expansion) : List Span :=
  (expansion.boundaries.zip expansion.boundaries.tail).map fun ends => ⟨ends.1, ends.2⟩

/-- A nonterminal recognized over a span, with all its expansions there. -/
structure Recognition where
  name : String
  expansions : List Expansion
deriving DecidableEq, Repr

/-- What is recognized over one span, in the order of the rules. -/
abbrev Cell := List Recognition

/-- The nonterminals recognized in a cell. -/
def Cell.names (cell : Cell) : List String :=
  cell.map Recognition.name

/-- The cells of all spans, by length and then by start. -/
abbrev Table := Array (Array Cell)

/-- The cell of a span; it is empty outside the input. -/
def Table.cell (table : Table) (span : Span) : Cell :=
  if span.start < span.stop then
    ((table[span.length - 1]?).bind (·[span.start]?)).getD []
  else []

/-! ### Filling one span -/

/-- Whether a part of the span `whole` fits a symbol.  Over the whole span a nonterminal has to be
among those `known` so far; over a shorter part, in the table. -/
def Table.fits (table : Table) (tokens : List String) (whole : Span) (known : List String)
    (symbol : Symbol) (part : Span) : Bool :=
  match symbol with
  | .terminal text => part.length = 1 && tokens[part.start]? = some text
  | .nonterminal name =>
    if part = whole then name ∈ known else name ∈ (table.cell part).names

/-- Whether some alternative of a rule splits the span, given the nonterminals known over it. -/
def Table.derives (table : Table) (tokens : List String) (span : Span) (known : List String)
    (rule : Rule) : Bool :=
  rule.alternatives.any fun symbols => !(splits (table.fits tokens span known) symbols span).isEmpty

/-- The nonterminals known over a span after a visit to one rule. -/
def Table.visit (table : Table) (tokens : List String) (span : Span) (known : List String)
    (rule : Rule) : List String :=
  if rule.name ∈ known then known
  else if table.derives tokens span known rule then rule.name :: known
  else known

/-- The nonterminals known over a span after visits to all the rules in turn.  Each visit sees what
the visits before it have added. -/
def Table.sweep (table : Table) (tokens : List String) (rules : List Rule) (span : Span)
    (known : List String) : List String :=
  rules.foldl (table.visit tokens span) known

/-- The nonterminals that derive a span.  Each sweep but the last adds one, so there are no more
sweeps than rules. -/
def Table.recognize (table : Table) (tokens : List String) (rules : List Rule) (span : Span) :
    List String :=
  settle (table.sweep tokens rules span) rules.length []

/-- Every expansion of some alternatives over a span, by alternative and then by split. -/
def Table.expansions (table : Table) (tokens : List String) (span : Span) (known : List String)
    (alternatives : List Alternative) : List Expansion :=
  alternatives.zipIdx.flatMap fun numbered =>
    (splits (table.fits tokens span known) numbered.1 span).map fun boundaries =>
      ⟨numbered.2, boundaries⟩

/-- The cell of a span, given the cells of all shorter spans. -/
def Table.fill (table : Table) (tokens : List String) (rules : List Rule) (span : Span) : Cell :=
  let known := table.recognize tokens rules span
  (rules.filter fun rule => rule.name ∈ known).map fun rule =>
    ⟨rule.name, table.expansions tokens span known rule.alternatives⟩

/-- The cells of the spans of up to the given length. -/
def Table.ofLength (tokens : List String) (rules : List Rule) : Nat → Table
  | 0 => #[]
  | length + 1 =>
    let shorter := Table.ofLength tokens rules length
    shorter.push <| ((List.range (tokens.length - length)).map fun start =>
      shorter.fill tokens rules ⟨start, start + (length + 1)⟩).toArray

/-! ### The whole input -/

/-- The recognition table of an input under a grammar. -/
structure Chart where
  grammar : Grammar
  tokens : List String
  table : Table

namespace Chart

/-- The chart of the given tokens. -/
def build (grammar : Grammar) (tokens : List String) : Chart :=
  ⟨grammar, tokens, Table.ofLength tokens grammar.rules tokens.length⟩

/-- The span of the whole input. -/
def whole (chart : Chart) : Span :=
  ⟨0, chart.tokens.length⟩

/-- The nonterminals recognized over a span, in increasing order. -/
def recognized (chart : Chart) (span : Span) : List String :=
  Text.sorted (chart.table.cell span).names

/-- Whether a nonterminal is recognized over a span. -/
def recognizes (chart : Chart) (name : String) (span : Span) : Bool :=
  name ∈ (chart.table.cell span).names

/-- Whether the start symbol derives the whole input.  The empty input is derived by an empty
alternative of the start symbol alone. -/
def accepts (chart : Chart) : Bool :=
  if chart.tokens.isEmpty then
    (chart.grammar.alternatives chart.grammar.start).any List.isEmpty
  else
    chart.recognizes chart.grammar.start chart.whole

/-- The expansions of a nonterminal over a span. -/
def expansions (chart : Chart) (name : String) (span : Span) : List Expansion :=
  (((chart.table.cell span).find? fun recognition => recognition.name = name).map
    Recognition.expansions).getD []

/-- The spans of the input, by length and then by start. -/
def spans (chart : Chart) : List Span :=
  (List.range chart.tokens.length).flatMap fun shorter =>
    (List.range (chart.tokens.length - shorter)).map fun start => ⟨start, start + (shorter + 1)⟩

end Chart

end ParseForest
