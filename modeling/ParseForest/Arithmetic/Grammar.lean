import ParseForest.Grammar.Basic

/-! # The grammar of arithmetic expressions

Sums of products of factors, all associating to the left:

    E -> E '+' T | E '-' T | T
    T -> T '*' F | T '/' F | F
    F -> '(' E ')' | 'a' | ... | 'z' | '0' | ... | '9' -/

namespace ParseForest.Arithmetic

/-- The four operators. -/
def operators : List String :=
  ["+", "-", "*", "/"]

/-- The tokens that are operands. -/
def operands : List String :=
  ["a", "b", "c", "d", "e", "f", "g", "h", "i", "j", "k", "l", "m", "n", "o", "p", "q", "r", "s",
    "t", "u", "v", "w", "x", "y", "z", "0", "1", "2", "3", "4", "5", "6", "7", "8", "9"]

/-- One operand on each side of an operator. -/
def binary (left operator right : String) : Alternative :=
  [.nonterminal left, .terminal operator, .nonterminal right]

/-- The grammar of arithmetic expressions. -/
def grammar : Grammar :=
  ⟨"E",
    [⟨"E", [binary "E" "+" "T", binary "E" "-" "T", [.nonterminal "T"]]⟩,
      ⟨"T", [binary "T" "*" "F", binary "T" "/" "F", [.nonterminal "F"]]⟩,
      ⟨"F", [.terminal "(", .nonterminal "E", .terminal ")"] ::
        operands.map fun operand => [.terminal operand]⟩]⟩

end ParseForest.Arithmetic
