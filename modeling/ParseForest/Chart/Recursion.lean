import ParseForest.Chart.Forest

/-! # The recursion behind the forest

The trees of a nonterminal over a span, below a path, come from those of the nonterminals in its
expansions, over their parts and below the path with the pair itself on it.  Here this recursion stands by
itself, without a bound on the height: it lists trees where it comes to an end
(`Chart.Lists`), and a call that would go on for ever lists nothing. -/

namespace ParseForest.Chart

/-- The trees for one part of an expansion, from those of the nonterminals that are not on the path. -/
def partTrees (path : List (String × Span)) (below : String → Span → List Tree)
    (part : Symbol × Span) : List Tree :=
  match part.1 with
  | .terminal text => [Tree.leaf text]
  | .nonterminal child => if path.contains (child, part.2) then [] else below child part.2

/-- The nodes of a nonterminal over a span, from the trees of the nonterminals below. -/
def nodesOver (chart : Chart) (path : List (String × Span)) (below : String → Span → List Tree)
    (name : String) (span : Span) : List Tree :=
  (chart.expansions name span).flatMap fun expansion =>
    (combinations ((chart.parts name expansion).map (partTrees ((name, span) :: path) below))).map
      (Tree.node (.nonterminal name))

/-- The call for a nonterminal over a span needs the trees of a nonterminal in one of its expansions,
over its part, if that pair is not on the path. -/
def Needs (chart : Chart) (path : List (String × Span)) (name : String) (span : Span) (child : String)
    (part : Span) : Prop :=
  ∃ expansion ∈ chart.expansions name span,
    (Symbol.nonterminal child, part) ∈ chart.parts name expansion ∧ (child, part) ∉ (name, span) :: path

/-- The call comes to an end, and these are its trees. -/
inductive Lists (chart : Chart) : List (String × Span) → String → Span → List Tree → Prop
  | node {path : List (String × Span)} {name : String} {span : Span}
      (below : String → Span → List Tree) :
      (∀ child part, chart.Needs path name span child part →
        Lists chart ((name, span) :: path) child part (below child part)) →
      Lists chart path name span (chart.nodesOver path below name span)

end ParseForest.Chart
