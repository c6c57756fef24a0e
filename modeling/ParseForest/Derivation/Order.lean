import ParseForest.Grammar.Basic
import ParseForest.Tree.Basic

/-! # The order of derivation trees

Two derivations of a nonterminal over the same span are compared by the place of the alternative
at the root, then by the boundaries between the children, the earlier boundary first, then by
the children from left to right. -/

namespace ParseForest

namespace Tree

/-- The boundaries between neighbouring trees, both ends included, counted from `start`. -/
def boundaries (start : Nat) : List Tree → List Nat
  | [] => [start]
  | t :: ts => start :: boundaries (start + t.leaves.length) ts

/-- The place of the alternative that some children spell. -/
def alternativePlace (g : Grammar) (name : String) (children : List Tree) : Nat :=
  (g.alternatives name).idxOf (children.map root)

/-- The first tree comes before the second, for trees of one nonterminal over one span. -/
inductive Precedes (g : Grammar) : Tree → Tree → Prop
  | alternative {name : String} {ss ts : List Tree} :
      alternativePlace g name ss < alternativePlace g name ts →
      Precedes g (node (.nonterminal name) ss) (node (.nonterminal name) ts)
  | boundary {name : String} {ss ts : List Tree} :
      alternativePlace g name ss = alternativePlace g name ts →
      boundaries 0 ss < boundaries 0 ts →
      Precedes g (node (.nonterminal name) ss) (node (.nonterminal name) ts)
  | child {name : String} {before : List Tree} {s t : Tree} {ss ts : List Tree} :
      alternativePlace g name (before ++ s :: ss) = alternativePlace g name (before ++ t :: ts) →
      boundaries 0 (before ++ s :: ss) = boundaries 0 (before ++ t :: ts) →
      Precedes g s t →
      Precedes g (node (.nonterminal name) (before ++ s :: ss))
        (node (.nonterminal name) (before ++ t :: ts))

end Tree

end ParseForest
