import ParseForest.Tree.Basic

/-! # Trees as text

Two renderings.  The bracketed one is a single line, `(E (E (T (F a))) + (T (F b)))`, in which a
node without children is its label in brackets.  The indented one has a line for each node and
leaf, two spaces deeper for each level, except that a node whose children are all leaves stands
on one line in its bracketed form. -/

namespace ParseForest.Tree

/-- A label and the texts after it in brackets, with spaces between them. -/
def bracket (label : Symbol) (parts : List String) : String :=
  "(" ++ Text.spaced (label.text :: parts) ++ ")"

mutual

/-- The rendering in one line. -/
def bracketed : Tree → String
  | leaf text => text
  | node label children => bracket label (bracketedAll children)

/-- The rendering of each tree in one line. -/
def bracketedAll : List Tree → List String
  | [] => []
  | t :: ts => bracketed t :: bracketedAll ts

end

/-- A text on a line of its own at the given depth. -/
def indentedLine (depth : Nat) (text : String) : String :=
  String.ofList (List.replicate (2 * depth) ' ') ++ text ++ "\n"

mutual

/-- The lines of a tree whose root is at the given depth. -/
def indentedAt (depth : Nat) : Tree → String
  | leaf text => indentedLine depth text
  | node label children =>
    if children.all isLeaf then
      indentedLine depth (bracket label (bracketedAll children))
    else
      indentedLine depth ("(" ++ label.text) ++ indentedAllAt (depth + 1) children ++
        indentedLine depth ")"

/-- The lines of trees whose roots are at the given depth. -/
def indentedAllAt (depth : Nat) : List Tree → String
  | [] => ""
  | t :: ts => indentedAt depth t ++ indentedAllAt depth ts

end

/-- The rendering over several lines, without white space at its end. -/
def indented (t : Tree) : String :=
  String.ofList (Text.trimEnd (t.indentedAt 0).toList)

end ParseForest.Tree
