import ParseForest.Derivation.Direction
import ParseForest.Tree.Basic

/-! # Sentential forms

The textbook derivation of a tree.  A frontier is a cut through the tree: trees side by side,
of which the nodes are still to be expanded.  Its roots, read left to right, are a sentential
form.  One step replaces the first (or last) node of the frontier by its children, so a tree
with `n` nodes has `n` steps and `n + 1` forms, from its root to its leaves. -/

namespace ParseForest

/-- A row of symbols on the way from the start symbol to the sentence. -/
abbrev Form := List Symbol

/-- The symbols of a form with one space between neighbours. -/
def Form.render (form : Form) : String :=
  Text.spaced (form.map Symbol.text)

namespace Tree

/-- The symbols at the roots of a frontier. -/
def formOf (frontier : List Tree) : Form :=
  frontier.map root

/-- The frontier with its first node replaced by the children of that node. -/
def expandFirst? : List Tree → Option (List Tree)
  | [] => none
  | leaf text :: rest => (expandFirst? rest).map (leaf text :: ·)
  | node _ children :: rest => some (children ++ rest)

/-- The frontier with its last node replaced by the children of that node. -/
def expandLast? : List Tree → Option (List Tree)
  | [] => none
  | t :: rest =>
    match expandLast? rest with
    | some expanded => some (t :: expanded)
    | none =>
      match t with
      | leaf _ => none
      | node _ children => some (children ++ rest)

/-- The next frontier, if a node is left to expand. -/
def expand? : Direction → List Tree → Option (List Tree)
  | .leftmost => expandFirst?
  | .rightmost => expandLast?

/-- The forms of at most the given number of steps from a frontier. -/
def formsWithin (direction : Direction) : Nat → List Tree → List Form
  | 0, frontier => [formOf frontier]
  | steps + 1, frontier =>
    formOf frontier ::
      match expand? direction frontier with
      | none => []
      | some next => formsWithin direction steps next

/-- The sentential forms of the derivation that a tree stands for.  There is one step for each node, and
more steps would find none left to expand. -/
def forms (direction : Direction) (t : Tree) : List Form :=
  formsWithin direction t.internalNodes [t]

end Tree

end ParseForest
