import ParseForest.Tree.Basic

/-! # Reversed trees

A tree with the children of every node in the opposite order. -/

namespace ParseForest.Tree

mutual

/-- The tree read from the right. -/
def reverse : Tree → Tree
  | leaf text => leaf text
  | node label children => node label (reverseAll children)

/-- The trees read from the right. -/
def reverseAll : List Tree → List Tree
  | [] => []
  | t :: ts => reverseAll ts ++ [reverse t]

end

theorem reverseAll_eq (ts : List Tree) : reverseAll ts = (ts.map reverse).reverse := by
  induction ts with
  | nil => rfl
  | cons t ts ih => simp [reverseAll, ih]

mutual

theorem reverse_reverse : (t : Tree) → t.reverse.reverse = t
  | leaf _ => rfl
  | node label children => by
    rw [reverse, reverse, reverseAll_eq, reverseAll_eq, List.map_reverse, List.reverse_reverse,
      List.map_map, map_reverse_reverse children]

theorem map_reverse_reverse : (ts : List Tree) → ts.map (reverse ∘ reverse) = ts
  | [] => rfl
  | t :: ts => by rw [List.map_cons, Function.comp_apply, reverse_reverse t, map_reverse_reverse ts]

end

end ParseForest.Tree
