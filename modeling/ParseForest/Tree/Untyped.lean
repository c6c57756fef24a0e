import ParseForest.Tree.Basic

/-! # Trees up to the kind of their labels

The renderings of a tree do not show whether a label is a terminal or a nonterminal. -/

namespace ParseForest.Tree

mutual

/-- The tree with every label taken for a nonterminal. -/
def untyped : Tree → Tree
  | leaf text => leaf text
  | node label children => node (.nonterminal label.text) (untypedAll children)

/-- The trees with every label taken for a nonterminal. -/
def untypedAll : List Tree → List Tree
  | [] => []
  | t :: ts => untyped t :: untypedAll ts

end

theorem untypedAll_eq (ts : List Tree) : untypedAll ts = ts.map untyped := by
  induction ts with
  | nil => rfl
  | cons t ts ih => simp [untypedAll, ih]

end ParseForest.Tree
