import ParseForest.Tree.Basic

/-! # Positions in a tree

A position is the list of child numbers on the way down from the root.  In pre-order a node stands before
the nodes below it, and those come from left to right, so the positions of the nodes increase in the order
of lists. -/

namespace ParseForest.Tree

/-- The tree with the subtree at a position changed; without such a subtree it stays. -/
def modifyAt (f : Tree → Tree) : List Nat → Tree → Tree
  | [], t => f t
  | _ :: _, leaf text => leaf text
  | i :: position, node label children => node label (children.modify i (modifyAt f position))

/-- The subtree at a position, if there is one. -/
def subtreeAt? : List Nat → Tree → Option Tree
  | [], t => some t
  | i :: position, t => t.children[i]?.bind (subtreeAt? position)

mutual

/-- The positions of the nodes, in pre-order. -/
def nodePositions : Tree → List (List Nat)
  | leaf _ => []
  | node _ children => [] :: nodePositionsFrom 0 children

/-- The positions of the nodes in neighbouring children, of which the first has the given number. -/
def nodePositionsFrom (i : Nat) : List Tree → List (List Nat)
  | [] => []
  | t :: ts => (nodePositions t).map (i :: ·) ++ nodePositionsFrom (i + 1) ts

end

mutual

/-- The tree and all trees below it, from the root down and from left to right. -/
def subtrees : Tree → List Tree
  | leaf text => [leaf text]
  | node label children => node label children :: subtreesAll children

/-- The trees and all trees below them. -/
def subtreesAll : List Tree → List Tree
  | [] => []
  | t :: ts => subtrees t ++ subtreesAll ts

end

theorem subtreesAll_eq (ts : List Tree) : subtreesAll ts = ts.flatMap subtrees := by
  induction ts with
  | nil => rfl
  | cons t ts ih => simp [subtreesAll, ih]

theorem forall_mem_subtrees_node {p : Tree → Prop} {label : Symbol} {children : List Tree} :
    (∀ u ∈ (node label children).subtrees, p u) ↔
      p (node label children) ∧ ∀ child ∈ children, ∀ u ∈ child.subtrees, p u := by
  simp only [subtrees, subtreesAll_eq, List.forall_mem_cons, List.mem_flatMap]
  refine and_congr_right fun _ => ⟨fun h child hchild u hu => ?_, ?_⟩
  · exact h u ⟨child, hchild, hu⟩
  · rintro h u ⟨child, hchild, hu⟩
    exact h child hchild u hu

end ParseForest.Tree
