import ParseForest.Simplifier
import ParseForest.Tree.Position

/-! # Normal trees

What a simplified tree no longer contains, and when one simplifier does at least what another
does. -/

namespace ParseForest.Simplifier

/-- A node that simplification replaces: a structural node with one child, or with an operator
between two children. -/
def Reducible (s : Simplifier) : Tree → Prop
  | .node label [_] => s.structural.holds label = true
  | .node label [_, .leaf operator, _] =>
    s.structural.holds label = true ∧ operator ∈ s.operators
  | _ => False

/-- No part of the tree is replaced. -/
def IsNormal (s : Simplifier) (t : Tree) : Prop :=
  ∀ u ∈ t.subtrees, ¬ s.Reducible u

/-- Every operator and every structural label of the first simplifier is one of the second. -/
def Within (a b : Simplifier) : Prop :=
  (∀ operator ∈ a.operators, operator ∈ b.operators) ∧
    ∀ label, a.structural.holds label = true → b.structural.holds label = true

end ParseForest.Simplifier
