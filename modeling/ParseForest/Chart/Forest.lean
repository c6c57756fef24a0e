import ParseForest.Chart.Basic
import ParseForest.Derivation.Direction
import ParseForest.Tree.Basic

/-! # The parse forest

All derivation trees of an input, read off its chart: alternatives in the order of the grammar,
then splits with the earlier boundary first, then the choices for the leftmost child varying
slowest.

Alternatives that are single nonterminals may lead from a nonterminal back to itself over the
same span.  A tree in which a nonterminal stands under itself over the same span is left out;
what remains is finite, and no higher than the number of nonterminals times the number of
tokens, since the pairs of a nonterminal and a span on a path are all different. -/

namespace ParseForest

/-- All ways to pick one item from each list, the pick from the first list varying slowest. -/
def combinations {α : Type} : List (List α) → List (List α)
  | [] => [[]]
  | choices :: rest =>
    let tails := combinations rest
    choices.flatMap fun choice => tails.map (choice :: ·)

theorem mem_combinations_cons {α : Type} {choices : List α} {rest : List (List α)} {a : α}
    {as : List α} :
    a :: as ∈ combinations (choices :: rest) ↔ a ∈ choices ∧ as ∈ combinations rest := by
  simp [combinations]

namespace Chart

/-- The symbols of an expansion of a nonterminal, each with its part of the span. -/
def parts (chart : Chart) (name : String) (expansion : Expansion) : List (Symbol × Span) :=
  ((chart.grammar.alternatives name)[expansion.alternative]?.getD []).zip expansion.spans

/-- The trees of a nonterminal over a span that are no higher than `height`, do not pass a pair
of a nonterminal and a span twice, and do not pass those on the `path` above. -/
def treesWithin (chart : Chart) :
    (height : Nat) → (path : List (String × Span)) → String → Span → List Tree
  | 0, _, _, _ => []
  | height + 1, path, name, span =>
    (chart.expansions name span).flatMap fun expansion =>
      let choices := (chart.parts name expansion).map fun part =>
        match part.1 with
        | .terminal text => [Tree.leaf text]
        | .nonterminal child =>
          if (child, part.2) ∈ (name, span) :: path then []
          else treesWithin chart height ((name, span) :: path) child part.2
      (combinations choices).map (Tree.node (.nonterminal name))

/-- The trees for one part of an expansion, below a path. -/
def choices (chart : Chart) (height : Nat) (path : List (String × Span)) (part : Symbol × Span) :
    List Tree :=
  match part.1 with
  | .terminal text => [Tree.leaf text]
  | .nonterminal child =>
    if (child, part.2) ∈ path then [] else treesWithin chart height path child part.2

theorem treesWithin_succ (chart : Chart) (height : Nat) (path : List (String × Span))
    (name : String) (span : Span) :
    chart.treesWithin (height + 1) path name span =
      (chart.expansions name span).flatMap fun expansion =>
        (combinations ((chart.parts name expansion).map
          (chart.choices height ((name, span) :: path)))).map (Tree.node (.nonterminal name)) := by
  rw [treesWithin]
  rfl

/-- The number of nonterminals times the number of tokens. -/
def heightBound (chart : Chart) : Nat :=
  chart.grammar.rules.length * chart.tokens.length

/-- Every tree of the start symbol over the whole input.  The empty input has at most the tree of
the start symbol without children. -/
def trees (chart : Chart) : List Tree :=
  if chart.tokens.isEmpty then
    if chart.accepts then [.node (.nonterminal chart.grammar.start) []] else []
  else
    chart.treesWithin chart.heightBound [] chart.grammar.start chart.whole

end Chart

/-- All derivation trees of the tokens, in the order of the direction. -/
def parse (grammar : Grammar) (tokens : List String) (direction : Direction) : List Tree :=
  direction.arrange (Chart.build grammar tokens).trees

end ParseForest
