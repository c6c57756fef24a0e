import ParseForest.Grammar.Symbol
import ParseForest.Text.WhiteSpace

/-! # Trees

A derivation tree is a leaf with the text of a token, or a node with a label and any number of
children, even none.  The same type holds simplified trees, where a node may be labelled with a
terminal, so a label is a symbol.

Functions on trees recurse into the list of children through a companion on lists; each
companion is a map, a sum or a concatenation over the list, as its lemma tells. -/

namespace ParseForest

/-- A leaf, or a labelled node over its children. -/
inductive Tree where
  | leaf (text : String)
  | node (label : Symbol) (children : List Tree)
deriving Repr

namespace Tree

/-! ### Equality -/

mutual

/-- Equality of trees is decidable. -/
def decEq : (s t : Tree) → Decidable (s = t)
  | leaf a, leaf b =>
    if h : a = b then isTrue (h ▸ rfl) else isFalse fun e => h (Tree.leaf.inj e)
  | leaf _, node _ _ => isFalse Tree.noConfusion
  | node _ _, leaf _ => isFalse Tree.noConfusion
  | node a ss, node b ts =>
    if h : a = b then
      match decEqAll ss ts with
      | isTrue hs => isTrue (h ▸ hs ▸ rfl)
      | isFalse hs => isFalse fun e => hs (Tree.node.inj e).2
    else isFalse fun e => h (Tree.node.inj e).1

/-- Equality of lists of trees is decidable. -/
def decEqAll : (ss ts : List Tree) → Decidable (ss = ts)
  | [], [] => isTrue rfl
  | [], _ :: _ => isFalse (List.cons_ne_nil _ _).symm
  | _ :: _, [] => isFalse (List.cons_ne_nil _ _)
  | s :: ss, t :: ts =>
    match decEq s t with
    | isTrue h =>
      match decEqAll ss ts with
      | isTrue hs => isTrue (h ▸ hs ▸ rfl)
      | isFalse hs => isFalse fun e => hs (List.cons.inj e).2
    | isFalse h => isFalse fun e => h (List.cons.inj e).1

end

instance : DecidableEq Tree := decEq

/-! ### Induction -/

/-- A property holds of every tree if it passes from the children of a node to the node. -/
@[elab_as_elim]
theorem induction {motive : Tree → Prop} (leaf : ∀ text, motive (leaf text))
    (node : ∀ label children, (∀ child ∈ children, motive child) → motive (node label children)) :
    ∀ t, motive t
  | .leaf text => leaf text
  | .node label children => node label children fun child _ => induction leaf node child

/-! ### Parts -/

/-- The label of a node. -/
def label? : Tree → Option Symbol
  | leaf _ => none
  | node label _ => some label

/-- The children of a node; a leaf has none. -/
def children : Tree → List Tree
  | leaf _ => []
  | node _ children => children

/-- Whether a tree is a leaf. -/
def isLeaf : Tree → Bool
  | leaf _ => true
  | node _ _ => false

/-- The symbol a tree stands for in the right-hand side above it. -/
def root : Tree → Symbol
  | leaf text => .terminal text
  | node label _ => label

mutual

/-- The texts of the leaves, left to right. -/
def leaves : Tree → List String
  | leaf text => [text]
  | node _ children => leavesAll children

/-- The texts of the leaves of all the trees, left to right. -/
def leavesAll : List Tree → List String
  | [] => []
  | t :: ts => leaves t ++ leavesAll ts

end

/-- The leaves in one text, with a space between neighbours. -/
def phrase (t : Tree) : String :=
  Text.spaced t.leaves

/-! ### Size -/

mutual

/-- The number of nodes; leaves do not count. -/
def internalNodes : Tree → Nat
  | leaf _ => 0
  | node _ children => 1 + internalNodesAll children

/-- The number of nodes in all the trees. -/
def internalNodesAll : List Tree → Nat
  | [] => 0
  | t :: ts => internalNodes t + internalNodesAll ts

end

mutual

/-- The greatest number of nodes on a path down from the root. -/
def height : Tree → Nat
  | leaf _ => 0
  | node _ children => 1 + heightAll children

/-- The greatest height of the trees. -/
def heightAll : List Tree → Nat
  | [] => 0
  | t :: ts => max (height t) (heightAll ts)

end

theorem leavesAll_eq (ts : List Tree) : leavesAll ts = ts.flatMap leaves := by
  induction ts with
  | nil => rfl
  | cons t ts ih => simp [leavesAll, ih]

theorem heightAll_le_iff {ts : List Tree} {n : Nat} :
    heightAll ts ≤ n ↔ ∀ t ∈ ts, t.height ≤ n := by
  induction ts with
  | nil => simp [heightAll]
  | cons t ts ih => rw [heightAll, Nat.max_le, ih, List.forall_mem_cons]

end Tree

end ParseForest
