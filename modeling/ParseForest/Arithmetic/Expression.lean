import ParseForest.Arithmetic.Grammar
import ParseForest.Tree.Basic

/-! # Arithmetic expressions

The operator trees that arithmetic expressions denote.  Sums and products associate to the left,
products bind more closely than sums, and parentheses stay in the tree. -/

namespace ParseForest.Arithmetic

/-- The operators of sums. -/
def additive : List String :=
  ["+", "-"]

/-- The operators of products. -/
def multiplicative : List String :=
  ["*", "/"]

/-- A node labelled with one of the operators. -/
def IsOperation (among : List String) : Tree → Prop
  | .node (.terminal operator) _ => operator ∈ among
  | _ => False

/-- The operator trees of expressions. -/
inductive IsExpression : Tree → Prop
  | operand {text : String} : text ∈ operands → IsExpression (.leaf text)
  | parenthesized {t : Tree} : IsExpression t →
      IsExpression (.node (.nonterminal "F") [.leaf "(", t, .leaf ")"])
  | sum {operator : String} {left right : Tree} : operator ∈ additive →
      IsExpression left → IsExpression right → ¬ IsOperation additive right →
      IsExpression (.node (.terminal operator) [left, right])
  | product {operator : String} {left right : Tree} : operator ∈ multiplicative →
      IsExpression left → IsExpression right → ¬ IsOperation additive left →
      ¬ IsOperation operators right →
      IsExpression (.node (.terminal operator) [left, right])

end ParseForest.Arithmetic
