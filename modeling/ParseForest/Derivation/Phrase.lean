import ParseForest.Tree.Basic

/-! # The phrases of a tree

A tree read as a derivation without its nonterminals: the phrase of each node, that is, the
leaves under it, with the nodes in pre-order. -/

namespace ParseForest.Tree

mutual

/-- The phrase of each node, in pre-order. -/
def phrases : Tree → List String
  | leaf _ => []
  | node label children => (node label children).phrase :: phrasesAll children

/-- The phrase of each node of the trees, tree by tree. -/
def phrasesAll : List Tree → List String
  | [] => []
  | t :: ts => phrases t ++ phrasesAll ts

end

end ParseForest.Tree
