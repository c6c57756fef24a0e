import ParseForest.Arithmetic.Grammar
import ParseForest.Grammar.Basic
import ParseForest.Tree.Basic

/-! # Reducing a derivation tree to an operator tree

A structural node only shows how the grammar is laid out.  With a single child it gives
way to that child; with an operator between two operands it becomes a node labelled with the
operator.  Every other node keeps its label over its simplified children, and a leaf stays.

A simplifier holds what counts as an operator and which labels are structural.  Operators and
structural labels are sets, so simplifiers are compared by `Simplifier.Same`. -/

namespace ParseForest

/-- The labels that are structural: all nonterminals, or those of the given names. -/
inductive Structural where
  | anyNonterminal
  | only (names : List String)
deriving DecidableEq, Repr

/-- Whether a label is structural; a terminal never is. -/
def Structural.holds : Structural → Symbol → Bool
  | _, .terminal _ => false
  | anyNonterminal, .nonterminal _ => true
  | only names, .nonterminal name => name ∈ names

/-- What counts as an operator, and which labels are structural. -/
structure Simplifier where
  operators : List String
  structural : Structural
deriving DecidableEq, Repr

namespace Simplifier

/-- The arithmetic operators, with every nonterminal structural. -/
def standard : Simplifier :=
  ⟨Arithmetic.operators, .anyNonterminal⟩

/-- The arithmetic operators, with the nonterminals of the grammar structural. -/
def forGrammar (g : Grammar) : Simplifier :=
  ⟨Arithmetic.operators, .only g.names⟩

/-- The same structural labels with other operators. -/
def withOperators (s : Simplifier) (operators : List String) : Simplifier :=
  { s with operators }

/-! ### Simplification -/

/-- A structural node over children that are simplified already. -/
def collapse (s : Simplifier) (label : Symbol) : List Tree → Tree
  | [only] => only
  | [left, .leaf operator, right] =>
    if operator ∈ s.operators then .node (.terminal operator) [left, right]
    else .node label [left, .leaf operator, right]
  | children => .node label children

/-- A node over children that are simplified already. -/
def rebuild (s : Simplifier) (label : Symbol) (children : List Tree) : Tree :=
  if s.structural.holds label then s.collapse label children else .node label children

mutual

/-- The tree without its structural detail. -/
def simplify (s : Simplifier) : Tree → Tree
  | .leaf text => .leaf text
  | .node label children => s.rebuild label (simplifyAll s children)

/-- The trees without their structural detail. -/
def simplifyAll (s : Simplifier) : List Tree → List Tree
  | [] => []
  | t :: ts => simplify s t :: simplifyAll s ts

end

theorem simplifyAll_eq (s : Simplifier) (ts : List Tree) : s.simplifyAll ts = ts.map s.simplify := by
  induction ts with
  | nil => rfl
  | cons t ts ih => simp [simplifyAll, ih]

/-! ### Sameness -/

/-- Two lists hold the same members. -/
def SameMembers (xs ys : List String) : Prop :=
  (∀ x ∈ xs, x ∈ ys) ∧ ∀ y ∈ ys, y ∈ xs

instance (xs ys : List String) : Decidable (SameMembers xs ys) :=
  inferInstanceAs (Decidable (_ ∧ _))

end Simplifier

/-- The same structural labels; all nonterminals are the same as no list of names. -/
def Structural.Same : Structural → Structural → Prop
  | anyNonterminal, anyNonterminal => True
  | only xs, only ys => Simplifier.SameMembers xs ys
  | _, _ => False

instance : (a b : Structural) → Decidable (a.Same b)
  | .anyNonterminal, .anyNonterminal => inferInstanceAs (Decidable True)
  | .only xs, .only ys => inferInstanceAs (Decidable (Simplifier.SameMembers xs ys))
  | .anyNonterminal, .only _ => inferInstanceAs (Decidable False)
  | .only _, .anyNonterminal => inferInstanceAs (Decidable False)

/-- The same operators and the same structural labels. -/
def Simplifier.Same (a b : Simplifier) : Prop :=
  SameMembers a.operators b.operators ∧ a.structural.Same b.structural

instance (a b : Simplifier) : Decidable (a.Same b) :=
  inferInstanceAs (Decidable (_ ∧ _))

end ParseForest
