import ParseForest.Tree.Basic

/-! # Reading a simplified tree

The tokens a tree stands for when a node labelled with an operator has that operator between its
first child and the others. -/

namespace ParseForest.Tree

mutual

/-- The tokens from left to right. -/
def reading (operators : List String) : Tree → List String
  | leaf text => [text]
  | node (.terminal operator) (first :: rest) =>
    if operator ∈ operators then
      reading operators first ++ operator :: readingAll operators rest
    else reading operators first ++ readingAll operators rest
  | node _ children => readingAll operators children

/-- The tokens of neighbouring trees. -/
def readingAll (operators : List String) : List Tree → List String
  | [] => []
  | t :: ts => reading operators t ++ readingAll operators ts

end

theorem readingAll_eq (operators : List String) (ts : List Tree) :
    readingAll operators ts = ts.flatMap (reading operators) := by
  induction ts with
  | nil => rfl
  | cons t ts ih => simp [readingAll, ih]

end ParseForest.Tree
