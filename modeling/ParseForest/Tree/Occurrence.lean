import ParseForest.Tree.Basic

/-! # The nodes of a tree in their places

The nodes of a tree, each with the leaves to its left and to its right, in the two orders in
which a derivation expands them: a node comes before the nodes below it, and those come from
left to right, or from right to left. -/

namespace ParseForest.Tree

/-- A node with the leaves before it and the leaves after it. -/
structure Occurrence where
  before : List String
  label : Symbol
  children : List Tree
  after : List String

mutual

/-- The nodes of a tree between the given leaves, from left to right. -/
def nodesFromLeft (before after : List String) : Tree → List Occurrence
  | leaf _ => []
  | node label children =>
    ⟨before, label, children, after⟩ :: nodesAllFromLeft before after children

/-- The nodes of neighbouring trees between the given leaves, from left to right. -/
def nodesAllFromLeft (before after : List String) : List Tree → List Occurrence
  | [] => []
  | t :: ts =>
    nodesFromLeft before (leavesAll ts ++ after) t ++ nodesAllFromLeft (before ++ t.leaves) after ts

end

mutual

/-- The nodes of a tree between the given leaves, from right to left. -/
def nodesFromRight (before after : List String) : Tree → List Occurrence
  | leaf _ => []
  | node label children =>
    ⟨before, label, children, after⟩ :: nodesAllFromRight before after children

/-- The nodes of neighbouring trees between the given leaves, from right to left. -/
def nodesAllFromRight (before after : List String) : List Tree → List Occurrence
  | [] => []
  | t :: ts =>
    nodesAllFromRight (before ++ t.leaves) after ts ++
      nodesFromRight before (leavesAll ts ++ after) t

end

end ParseForest.Tree
