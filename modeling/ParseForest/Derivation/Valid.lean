import ParseForest.Chart.Span
import ParseForest.Grammar.Basic
import ParseForest.Tree.Basic

/-! # Derivation trees of a grammar

Which trees are derivations: every node is labelled with a nonterminal and its children spell an
alternative of that nonterminal.  The chart knows the derivations in which no alternative is
empty (`Grammar.ExpandsProperly`), the generator all of them (`Grammar.Expands`), so the notion
is stated for any relation between nonterminals and alternatives.

A derivation is free of cycles if no path down from its root meets the same symbol over the same
span twice. -/

namespace ParseForest

/-- The nonterminal has the alternative. -/
def Grammar.Expands (g : Grammar) (name : String) (alternative : Alternative) : Prop :=
  alternative ∈ g.alternatives name

/-- The nonterminal has the alternative, which is not empty. -/
def Grammar.ExpandsProperly (g : Grammar) (name : String) (alternative : Alternative) : Prop :=
  alternative ≠ [] ∧ g.Expands name alternative

namespace Tree

/-- A tree in which every node expands its label to the roots of its children. -/
inductive Derives (expands : String → Alternative → Prop) : Tree → Prop
  | leaf (text : String) : Derives expands (leaf text)
  | node (name : String) (children : List Tree) :
      expands name (children.map root) → (∀ child ∈ children, Derives expands child) →
      Derives expands (node (.nonterminal name) children)

theorem derives_node {expands : String → Alternative → Prop} {name : String}
    {children : List Tree} :
    Derives expands (node (.nonterminal name) children) ↔
      expands name (children.map root) ∧ ∀ child ∈ children, Derives expands child := by
  constructor
  · intro h
    cases h with
    | node _ _ hr hc => exact ⟨hr, hc⟩
  · exact fun h => .node name children h.1 h.2

/-! ### Spans and cycles -/

/-- The span of a tree whose first leaf stands at the given position. -/
def spanAt (start : Nat) (t : Tree) : Span :=
  ⟨start, start + t.leaves.length⟩

mutual

/-- The paths from the root down to a node: the label and the span of each node on the way. -/
def pathsAt (start : Nat) : Tree → List (List (Symbol × Span))
  | leaf _ => []
  | node label children =>
    let here := (label, spanAt start (node label children))
    [here] :: (pathsAllAt start children).map (here :: ·)

/-- The paths of neighbouring trees, of which the first begins at the given position. -/
def pathsAllAt (start : Nat) : List Tree → List (List (Symbol × Span))
  | [] => []
  | t :: ts => pathsAt start t ++ pathsAllAt (start + t.leaves.length) ts

end

/-- No path meets the same symbol over the same span twice. -/
def CycleFree (t : Tree) : Prop :=
  ∀ path ∈ t.pathsAt 0, path.Nodup

instance (t : Tree) : Decidable t.CycleFree :=
  inferInstanceAs (Decidable (∀ path ∈ t.pathsAt 0, path.Nodup))

end Tree

end ParseForest
