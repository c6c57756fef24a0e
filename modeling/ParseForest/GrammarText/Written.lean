import Mathlib.Data.List.Forall2
import ParseForest.GrammarText.Writer

/-! # The texts of a grammar

A grammar can be written in more than one way.  The rule of the start symbol comes first, and the
others in any order; each time a terminal is written, either quote that does not occur in it will
do; the last line may or may not end with a line feed.  `write` gives one of these texts. -/

namespace ParseForest.GrammarText

/-- The piece is a way to write the symbol. -/
def WritesSymbol : Symbol → String → Prop
  | .nonterminal name, piece => piece = name
  | .terminal text, piece => ∃ quote, Token.isQuote quote = true ∧ quote ∉ text.toList ∧
      piece = String.ofList (quote :: text.toList ++ [quote])

/-- The piece is a way to write the alternative; without symbols it is an empty terminal. -/
def WritesAlternative : Alternative → String → Prop
  | [], piece => piece = "''"
  | symbol :: rest, piece => ∃ pieces, List.Forall₂ WritesSymbol (symbol :: rest) pieces ∧
      piece = Text.spaced pieces

/-- The line is a way to write the rule. -/
def WritesRule (rule : Rule) (line : String) : Prop :=
  ∃ pieces, List.Forall₂ WritesAlternative rule.alternatives pieces ∧
    line = rule.name ++ " -> " ++ " | ".intercalate pieces

/-- The text is a way to write the grammar. -/
def Writes (g : Grammar) (text : String) : Prop :=
  ∃ rules lines feed, rules.Perm g.rules ∧ (rules.map Rule.name).head? = some g.start ∧
    List.Forall₂ WritesRule rules lines ∧ (feed = "" ∨ feed = "\n") ∧
    text = "\n".intercalate lines ++ feed

end ParseForest.GrammarText
